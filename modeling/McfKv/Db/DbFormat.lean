import Mathlib.Data.List.Lex
import McfKv.Util.Coding

/-!
# Keys and configuration (`db/dbformat.h`, `db/dbformat.cc`, `util/comparator.cc`)

An internal key is a user key followed by eight bytes that pack a sequence number
and a value type. `InternalKeyComparator` orders internal keys by increasing user
key and then by decreasing packed number. Three facts about it are used above this
module:

* `compareSlices_eq_iff`, `compareSlices_eq_lt_iff` — the bytewise comparator is the
  lexicographic order of slices;
* `internalKeyCompare_eq_lt_iff` — the order of internal keys in terms of user keys and
  packed numbers;
* `internalKeyCompare_eq_iff` — the internal comparator tells apart any two different
  slices of at least eight bytes, *whatever those bytes mean*. `BuildTable` hands plain user
  keys to this comparator, and this is what makes that harmless for user keys of
  at least eight bytes.
-/

namespace McfKv

/-! ## `namespace config` -/

namespace Config

/-- Maximum number of merge candidate files; writes stop at this point. -/
def stopWritesTrigger : ℕ := 30

/-- Soft limit on merge candidate files; writes slow down at this point. -/
def slowdownWritesTrigger : ℕ := 15

/-- The cap on the group of files one compaction merges. -/
def compactCandidateStopWriteTrigger : ℕ := 4

/-- Max number of files to be merged at once. -/
def compactionMaxSize : ℕ := 15

/-- Min file number to start a compaction check round. -/
def startCompactionCheckTrigger : ℕ := 25

/-- Number of merge candidates to be checked in one round. -/
def filesToPickAtOneRound : ℕ := 50

/-- The check count after which a file's count starts again at one. -/
def maxRoundNumberForPerFile : ℤ := 24

/-- Number of files one `PickCandidates` looks at. -/
def maxPickTimes : ℕ := 250

/-- Number of rounds `Finalize` makes. -/
def maxMergeCandidateCheckRound : ℕ := 3

/-- `(int)(PickRatio * (double)n)` with `PickRatio = 0.7`; `PickCandidates` uses it
for `25 ≤ n < 50` only, where the double product rounds to the exact floor. -/
def pickRatio (n : ℕ) : ℕ := n * 7 / 10

/-- The overlap a file needs to be added to a compaction group. -/
def overlapRatioThreshold : ℕ := 0

end Config

/-! ## Internal keys -/

/-- `enum ValueType`. -/
inductive ValueType where
  | deletion
  | value
deriving DecidableEq, Repr

/-- The byte a value type is stored as. -/
def ValueType.code : ValueType → ℕ
  | .deletion => 0
  | .value => 1

/-- `kMaxSequenceNumber`: sequence numbers have 56 bits. -/
def maxSequenceNumber : ℕ := 2 ^ 56 - 1

/-- `PackSequenceAndType`. -/
def packSequenceAndType (seq : ℕ) (t : ValueType) : ℕ := ((seq <<< 8) ||| t.code) % 2 ^ 64

/-- `ExtractUserKey`: all but the last eight bytes. For a key of fewer than eight bytes the source
asserts, and without assertions `size() - 8` wraps as a `size_t`; here the result is the empty slice. -/
def extractUserKey (internalKey : Slice) : Slice := internalKey.take (internalKey.length - 8)

/-- The last eight bytes of an internal key. -/
def extractTag (internalKey : Slice) : Slice := internalKey.drop (internalKey.length - 8)

/-- The packed number that the last eight bytes hold. -/
def extractNumber (internalKey : Slice) : ℕ := Coding.decodeFixed64 (extractTag internalKey)

/-- `AppendInternalKey`. -/
def appendInternalKey (userKey : Slice) (seq : ℕ) (t : ValueType) : Slice :=
  userKey ++ Coding.encodeFixed64 (packSequenceAndType seq t)

/-- `ParseInternalKey`: the user key, the sequence number and the type. -/
def parseInternalKey (internalKey : Slice) : Option (Slice × ℕ × ValueType) :=
  if internalKey.length < 8 then none
  else
    let num := extractNumber internalKey
    match num &&& 0xff with
    | 0 => some (extractUserKey internalKey, num >>> 8, .deletion)
    | 1 => some (extractUserKey internalKey, num >>> 8, .value)
    | _ => none

/-- `LookupKey::internal_key`; `kValueTypeForSeek` is `kTypeValue`. -/
def lookupKey (userKey : Slice) (seq : ℕ) : Slice := appendInternalKey userKey seq .value

/-- `class InternalKey`: its encoding `rep_`. -/
structure InternalKey where
  rep : Slice
deriving DecidableEq, Repr

/-- `InternalKey::Encode`. -/
def InternalKey.encode (key : InternalKey) : Slice := key.rep

/-- `InternalKey::DecodeFrom`. -/
def InternalKey.decodeFrom (s : Slice) : InternalKey := ⟨s⟩

/-- `InternalKey::user_key`. -/
def InternalKey.userKey (key : InternalKey) : Slice := extractUserKey key.rep

/-! ## Comparators -/

/-- `BytewiseComparatorImpl::Compare`, that is `Slice::compare`: `memcmp` on the
common length, then the shorter slice first. -/
def compareSlices : Slice → Slice → Ordering
  | [], [] => .eq
  | [], _ :: _ => .lt
  | _ :: _, [] => .gt
  | a :: as, b :: bs =>
    if a.toNat < b.toNat then .lt else if b.toNat < a.toNat then .gt
    else compareSlices as bs

/-- `InternalKeyComparator::Compare`: increasing user key, then decreasing number. -/
def internalKeyCompare (a b : Slice) : Ordering :=
  match compareSlices (extractUserKey a) (extractUserKey b) with
  | .eq =>
    let anum := Coding.decodeFixed64 (extractTag a)
    let bnum := Coding.decodeFixed64 (extractTag b)
    if bnum < anum then .lt else if anum < bnum then .gt else .eq
  | r => r

theorem compareSlices_eq_iff (a b : Slice) : compareSlices a b = .eq ↔ a = b := by
  induction a generalizing b with
  | nil => cases b <;> simp [compareSlices]
  | cons x as ih =>
    cases b with
    | nil => simp [compareSlices]
    | cons y bs =>
      unfold compareSlices
      split_ifs with hlt hgt
      · simp only [List.cons.injEq, false_iff, not_and]
        rintro rfl
        exact absurd hlt (lt_irrefl _)
      · simp only [List.cons.injEq, false_iff, not_and]
        rintro rfl
        exact absurd hgt (lt_irrefl _)
      · have hxy : x = y := UInt8.toNat_inj.mp (by omega)
        simp [ih, hxy]

/-- Little-endian decoding of equally long slices of at most eight bytes is
injective. -/
theorem decodeFixed64_injective {a b : Slice} (ha : a.length = b.length)
    (hb : b.length ≤ 8) (h : Coding.decodeFixed64 a = Coding.decodeFixed64 b) : a = b := by
  unfold Coding.decodeFixed64 at h
  rw [List.take_of_length_le (by omega), List.take_of_length_le hb] at h
  clear hb
  induction a generalizing b with
  | nil => exact (List.length_eq_zero_iff.mp ha.symm).symm
  | cons x as ih =>
    cases b with
    | nil => simp at ha
    | cons y bs =>
      simp only [List.foldr_cons] at h
      have hx := x.toNat_lt
      have hy := y.toNat_lt
      have hhead : x.toNat = y.toNat := by omega
      have htail := ih (b := bs) (by simpa using ha) (by omega)
      rw [UInt8.toNat_inj.mp hhead, htail]

theorem internalKeyCompare_eq_iff {a b : Slice} (ha : 8 ≤ a.length) (hb : 8 ≤ b.length) :
    internalKeyCompare a b = .eq ↔ a = b := by
  constructor
  · intro h
    unfold internalKeyCompare at h
    split at h
    · rename_i huser
      have huserKey := (compareSlices_eq_iff _ _).mp huser
      dsimp only at h
      split_ifs at h with h1 h2
      have hlen : (extractTag a).length = 8 ∧ (extractTag b).length = 8 := by
        simp only [extractTag, List.length_drop]
        omega
      have htag : extractTag a = extractTag b :=
        decodeFixed64_injective (hlen.1.trans hlen.2.symm) hlen.2.le (by omega)
      calc a = extractUserKey a ++ extractTag a := (List.take_append_drop _ _).symm
        _ = extractUserKey b ++ extractTag b := by rw [huserKey, htag]
        _ = b := List.take_append_drop _ _
    · rename_i hne
      exact absurd h hne
  · rintro rfl
    have huser := (compareSlices_eq_iff (extractUserKey a) (extractUserKey a)).mpr rfl
    simp [internalKeyCompare, huser]

/-! ## The order of internal keys -/

/-- Bytes are ordered as numbers. -/
instance instLinearOrderByte : LinearOrder UInt8 where
  le_refl := UInt8.le_refl
  le_trans _ _ _ := UInt8.le_trans
  le_antisymm _ _ := UInt8.le_antisymm
  lt_iff_le_not_ge a b := by
    simp only [UInt8.lt_iff_toNat_lt, UInt8.le_iff_toNat_le]
    omega
  le_total := UInt8.le_total
  toDecidableLE := inferInstance
  toDecidableEq := inferInstance
  toDecidableLT := inferInstance

theorem compareSlices_eq_lt_iff (a b : Slice) : compareSlices a b = .lt ↔ a < b := by
  induction a generalizing b with
  | nil => cases b <;> simp [compareSlices]
  | cons x as ih =>
    cases b with
    | nil => simp [compareSlices]
    | cons y bs =>
      unfold compareSlices
      rw [List.cons_lt_cons_iff, UInt8.lt_iff_toNat_lt, ← UInt8.toNat_inj]
      split_ifs with hlt hgt
      · simp [hlt]
      · simp [hlt, Nat.ne_of_gt hgt]
      · have hxy : x.toNat = y.toNat := by omega
        simp [ih, hxy]

theorem compareSlices_eq_gt_iff (a b : Slice) : compareSlices a b = .gt ↔ b < a := by
  cases h : compareSlices a b with
  | lt => simp [((compareSlices_eq_lt_iff a b).mp h).le]
  | eq => simp [(compareSlices_eq_iff a b).mp h]
  | gt =>
    have hne : a ≠ b := fun heq => by simp [(compareSlices_eq_iff a b).mpr heq] at h
    have hlt : ¬ a < b := fun hlt => by simp [(compareSlices_eq_lt_iff a b).mpr hlt] at h
    simp [(not_lt.mp hlt).lt_of_ne' hne]

/-- Ascending user keys, and descending packed numbers of one user key. -/
theorem internalKeyCompare_eq_lt_iff (a b : Slice) :
    internalKeyCompare a b = .lt ↔ extractUserKey a < extractUserKey b ∨
      (extractUserKey a = extractUserKey b ∧ extractNumber b < extractNumber a) := by
  unfold internalKeyCompare extractNumber
  cases h : compareSlices (extractUserKey a) (extractUserKey b) with
  | lt => simp [(compareSlices_eq_lt_iff _ _).mp h]
  | eq =>
    rw [(compareSlices_eq_iff _ _).mp h]
    dsimp only
    split_ifs <;> simp_all
  | gt =>
    have hlt := (compareSlices_eq_gt_iff _ _).mp h
    simp [hlt.le, hlt.ne']

theorem internalKeyCompare_eq_gt_iff (a b : Slice) :
    internalKeyCompare a b = .gt ↔ extractUserKey b < extractUserKey a ∨
      (extractUserKey a = extractUserKey b ∧ extractNumber a < extractNumber b) := by
  unfold internalKeyCompare extractNumber
  cases h : compareSlices (extractUserKey a) (extractUserKey b) with
  | lt =>
    have hlt := (compareSlices_eq_lt_iff _ _).mp h
    simp [hlt.le, hlt.ne]
  | eq =>
    rw [(compareSlices_eq_iff _ _).mp h]
    dsimp only
    split_ifs with hgt hlt
    · simp [hgt.le]
    · simp [hlt]
    · simp [not_lt.mp hlt]
  | gt => simp [(compareSlices_eq_gt_iff _ _).mp h]

theorem decodeFixed64_encodeFixed64 (v : ℕ) :
    Coding.decodeFixed64 (Coding.encodeFixed64 v) = v % 2 ^ 64 := by
  simpa using Coding.decodeFixed64_append v []

@[simp] theorem extractUserKey_append (userKey : Slice) (seq : ℕ) (t : ValueType) :
    extractUserKey (appendInternalKey userKey seq t) = userKey := by
  simp [extractUserKey, appendInternalKey, Coding.encodeFixed64]

@[simp] theorem extractNumber_append (userKey : Slice) (seq : ℕ) (t : ValueType) :
    extractNumber (appendInternalKey userKey seq t) = packSequenceAndType seq t := by
  have htag : extractTag (appendInternalKey userKey seq t) =
      Coding.encodeFixed64 (packSequenceAndType seq t) := by
    simp [extractTag, appendInternalKey, Coding.encodeFixed64]
  unfold extractNumber
  rw [htag, decodeFixed64_encodeFixed64]
  exact Nat.mod_mod _ _

theorem packSequenceAndType_eq {seq : ℕ} (h : seq ≤ maxSequenceNumber) (t : ValueType) :
    packSequenceAndType seq t = seq * 256 + t.code := by
  have hcode : t.code < 2 ^ 8 := by cases t <;> decide
  unfold maxSequenceNumber at h
  unfold packSequenceAndType
  rw [← Nat.shiftLeft_add_eq_or_of_lt hcode, Nat.shiftLeft_eq]
  omega

theorem packSequenceAndType_le_iff {seq S : ℕ} (hseq : seq ≤ maxSequenceNumber)
    (hS : S ≤ maxSequenceNumber) (t : ValueType) :
    packSequenceAndType seq t ≤ packSequenceAndType S .value ↔ seq ≤ S := by
  rw [packSequenceAndType_eq hseq, packSequenceAndType_eq hS]
  have hcode : t.code ≤ 1 := by cases t <;> decide
  have hvalue : ValueType.value.code = 1 := rfl
  omega

theorem parseInternalKey_append (userKey : Slice) {seq : ℕ} (h : seq ≤ maxSequenceNumber)
    (t : ValueType) :
    parseInternalKey (appendInternalKey userKey seq t) = some (userKey, seq, t) := by
  have hlen : ¬ (appendInternalKey userKey seq t).length < 8 := by
    simp [appendInternalKey]
  have hshift : packSequenceAndType seq t >>> 8 = seq := by
    rw [packSequenceAndType_eq h, Nat.shiftRight_eq_div_pow]
    cases t <;> simp only [ValueType.code] <;> omega
  have hcode : packSequenceAndType seq t &&& 0xff = t.code := by
    rw [packSequenceAndType_eq h, Nat.and_two_pow_sub_one_eq_mod _ 8]
    cases t <;> simp only [ValueType.code] <;> omega
  unfold parseInternalKey
  rw [if_neg hlen]
  dsimp only
  rw [extractNumber_append, hcode, hshift, extractUserKey_append]
  cases t <;> rfl

end McfKv
