import Mathlib.Data.List.Nodup
import Mathlib.Logic.Function.Basic
import McfKv.Util.Coding

/-!
# The cuckoo filter (`multi-cuckoo-index/cuckoo.cc`, `nvmsingletable.h`)

A filter is a table of buckets with four slots each. A slot is a 64-bit word with a
32-bit fingerprint and a 32-bit file number, and `0` is an empty slot. The upper half of
a key's hash, here its *class*, determines the fingerprint and the first bucket; the
second bucket follows from either bucket and the fingerprint.

`AddImpl` puts a slot into one of its buckets, or kicks a random slot out of the second
one and goes on with that, up to `kMaxCuckoo` visits. What is then in its hand is
dropped. `Rehash` moves all slots to a table of twice the size.

`AddEnds` and `RehashEnds` say when an `Add` and a rehash lose nothing: the walks find room,
or the one slot dropped is the new one, and no slot belongs to class `0`. A slot of class
`0` has the same fingerprint as a slot of class `1`, and `TransferData` only looks at the
fingerprint.

The draws of `rand()` are a sequence given from outside, and every function that draws
takes and returns the number of draws made so far. Comparisons of `double` quotients are
made exactly: the denominators are powers of two.
-/

namespace McfKv.Cuckoo

/-- `kSlotPerBucket_`. -/
def slotPerBucket : ℕ := 4

/-- `kMaxCuckoo`. -/
def maxCuckoo : ℕ := 500

/-- The slots of an `NvmSingleTable`, by bucket and place in the bucket. -/
abbrev Table := ℕ × ℕ → ℕ

/-- `IndexHash`. -/
def indexHash (hashv numBuckets : ℕ) : ℕ := hashv &&& (numBuckets - 1)

/-- `AltIndex`. -/
def altIndex (index fp numBuckets : ℕ) : ℕ :=
  indexHash ((index ^^^ (fp >>> 16) * 0x5bd1e995 % 2 ^ 32) % 2 ^ 32) numBuckets

/-- The fingerprint that `GenerateIndexSlotHash` makes of the upper half of a hash. -/
def fingerprint (h : ℕ) : ℕ := if h = 0 then 1 else h

/-- `((uint64_t)fp << 32) | file_no`. -/
def slotOf (h file : ℕ) : ℕ := fingerprint h * 2 ^ 32 + file

/-! ## `NvmSingleTable` -/

/-- What the scan of a bucket ends with. -/
inductive Scan where
  | free (j : ℕ)
  | collision
  | full
deriving DecidableEq, Repr

/-- The loop of `InsertTagToBucketAndCheckDup64`. -/
def scan (T : Table) (i slot : ℕ) : List ℕ → Scan
  | [] => .full
  | j :: js =>
    if T (i, j) = 0 then .free j
    else if T (i, j) / 2 ^ 32 = slot / 2 ^ 32 then .collision
    else scan T i slot js

/-- The loop over one bucket of `FindSlotInBuckets64`. -/
def findInBucket (T : Table) (i fp : ℕ) : Option (ℕ × ℕ) :=
  ((List.range slotPerBucket).find? fun j => T (i, j) / 2 ^ 32 = fp).map fun j => (i, j)

/-- `FindSlotInBuckets64`: where the slot is. -/
def findSlot (T : Table) (i₁ i₂ fp : ℕ) : Option (ℕ × ℕ) :=
  (findInBucket T i₁ fp).or (findInBucket T i₂ fp)

/-! ## `CuckooFilter` -/

section Rand

-- the results of `rand()`
variable (rand : ℕ → ℕ)

/-- What `AddImpl` leaves behind. -/
structure Added where
  status : Status
  table : Table
  draws : ℕ

/-- The loop of `AddImpl`. The flag is `kickout`, which is false in the first round. -/
def addLoop (numBuckets : ℕ) : ℕ → Bool → Table → ℕ → ℕ → ℕ → Added
  | 0, _, T, draws, _, _ => ⟨.ioError "failed to insert!", T, draws⟩
  | fuel + 1, kickout, T, draws, i, slot =>
    match scan T i slot (List.range slotPerBucket) with
    | .free j => ⟨.ok, Function.update T (i, j) slot, draws⟩
    | .collision => ⟨.alreadyExist "hash collision happened", T, draws⟩
    | .full =>
      if kickout then
        let j := rand draws % slotPerBucket
        let old := T (i, j)
        addLoop numBuckets fuel true (Function.update T (i, j) slot) (draws + 1)
          (altIndex i (old / 2 ^ 32) numBuckets) old
      else addLoop numBuckets fuel true T draws (altIndex i (slot / 2 ^ 32) numBuckets) slot

/-- `class CuckooFilter`. -/
structure Filter where
  maxKeys : ℕ
  numBuckets : ℕ
  table : Table
  numItems : ℕ
  isRehashing : Bool

/-- `upperpower2`. -/
def upperpower2 (x : ℕ) : ℕ :=
  let x := x - 1
  let x := x ||| x >>> 1
  let x := x ||| x >>> 2
  let x := x ||| x >>> 4
  let x := x ||| x >>> 8
  let x := x ||| x >>> 16
  let x := x ||| x >>> 32
  x + 1

/-- The number of buckets for a number of keys: the load must not exceed `maximum_frac`. -/
def bucketsFor (maxKeys : ℕ) : ℕ :=
  let numBuckets := upperpower2 (max 1 (maxKeys / slotPerBucket))
  if 96 * (numBuckets * slotPerBucket) < 100 * maxKeys then numBuckets * 2 else numBuckets

namespace Filter

/-- `CuckooFilter::CuckooFilter`. -/
def new (maxNumKeys : ℕ) : Filter where
  maxKeys := maxNumKeys
  numBuckets := bucketsFor maxNumKeys
  table := fun _ => 0
  numItems := 0
  isRehashing := false

/-- Where the slot of a class is, in one of its two buckets. -/
def locate (f : Filter) (h : ℕ) : Option (ℕ × ℕ) :=
  let i₁ := indexHash h f.numBuckets
  findSlot f.table i₁ (altIndex i₁ (fingerprint h) f.numBuckets) (fingerprint h)

/-- `Contain(key, res)`. -/
def contain (f : Filter) (h : ℕ) : Option ℕ := (f.locate h).map fun p => f.table p % 2 ^ 32

/-- `Update`. -/
def update (f : Filter) (h file : ℕ) : Filter :=
  match f.locate h with
  | some p => { f with table := Function.update f.table p (slotOf h file) }
  | none => f

/-- `GetLoadFactor() > load_factor_threshold_`, with the threshold `0.85`. -/
def overloaded (f : Filter) : Bool := 85 * (f.numBuckets * slotPerBucket) < 100 * f.numItems

/-- `AddImpl` on the table of the filter: the status, the filter and the draws made. -/
def addImpl (f : Filter) (draws i slot : ℕ) : Status × Filter × ℕ :=
  let added := addLoop rand f.numBuckets maxCuckoo false f.table draws i slot
  (added.status,
    { f with
      table := added.table
      numItems := if added.status.isOk then f.numItems + 1 else f.numItems },
    added.draws)

/-- `Add`. -/
def add (f : Filter) (draws h file : ℕ) : Status × Filter × ℕ :=
  f.addImpl rand draws (indexHash h f.numBuckets) (slotOf h file)

/-- The order in which `TransferData` visits the slots of a table. -/
def positions (numBuckets : ℕ) : List (ℕ × ℕ) :=
  (List.range slotPerBucket).flatMap fun j => (List.range numBuckets).map fun b => (b, j)

/-- The loop of `TransferData`; `f` is the filter with the new table. -/
def transferLoop (T : Table) (total : ℕ) : List (ℕ × ℕ) → Filter → ℕ → Filter × ℕ
  | [], f, draws => (f, draws)
  | p :: ps, f, draws =>
    if T p = 0 then transferLoop T total ps f draws
    else
      let added := f.addImpl rand draws (indexHash (T p / 2 ^ 32) f.numBuckets) (T p)
      if added.2.1.numItems = total then added.2
      else transferLoop T total ps added.2.1 added.2.2

/-- The filter with an empty table of twice the size; `max_keys_` is a `size_t`. -/
def grown (f : Filter) : Filter where
  maxKeys := f.maxKeys * 2 % 2 ^ 64
  numBuckets := bucketsFor (f.maxKeys * 2 % 2 ^ 64)
  table := fun _ => 0
  numItems := 0
  isRehashing := false

/-- `Rehash`. `NumBuckets()` is a `uint32_t`, and the loop of `TransferData` counts up to it
with an `int`, which overflows when there are `2 ^ 31` buckets. -/
def rehash (f : Filter) (draws : ℕ) : Option (Filter × ℕ) :=
  if 2 ^ 31 ≤ f.numBuckets % 2 ^ 32 then none
  else
    some (transferLoop rand f.table f.numItems (positions (f.numBuckets % 2 ^ 32)) f.grown draws)

end Filter

end Rand

/-! ## The two buckets of a class -/

section Buckets

variable {e : ℕ}

theorem indexHash_two_pow (h e : ℕ) : indexHash h (2 ^ e) = h % 2 ^ e :=
  Nat.and_two_pow_sub_one_eq_mod h e

/-- What `AltIndex` adds to a bucket number. -/
def altMask (fp e : ℕ) : ℕ := (fp >>> 16) * 0x5bd1e995 % 2 ^ 32 % 2 ^ e

theorem altMask_lt (fp e : ℕ) : altMask fp e < 2 ^ e := Nat.mod_lt _ (Nat.two_pow_pos e)

variable {i c b h file : ℕ}

section

variable (hi : i < 2 ^ e) (he : e ≤ 32)

include hi he

theorem altIndex_eq (fp : ℕ) : altIndex i fp (2 ^ e) = i ^^^ altMask fp e := by
  have hdvd : 2 ^ e ∣ 2 ^ 32 := Nat.pow_dvd_pow 2 he
  unfold altIndex altMask
  rw [indexHash_two_pow, Nat.mod_mod_of_dvd _ hdvd, Nat.xor_mod_two_pow, Nat.mod_eq_of_lt hi]

theorem altIndex_lt (fp : ℕ) : altIndex i fp (2 ^ e) < 2 ^ e := by
  rw [altIndex_eq hi he]
  exact Nat.xor_lt_two_pow hi (altMask_lt fp e)

theorem altIndex_altIndex (fp : ℕ) : altIndex (altIndex i fp (2 ^ e)) fp (2 ^ e) = i := by
  rw [altIndex_eq (altIndex_lt hi he fp) he, altIndex_eq hi he, Nat.xor_assoc, Nat.xor_self,
    Nat.xor_zero]

theorem altIndex_of_small {fp : ℕ} (hfp : fp < 2 ^ 16) : altIndex i fp (2 ^ e) = i := by
  have h0 : fp >>> 16 = 0 := by
    rw [Nat.shiftRight_eq_div_pow]
    exact Nat.div_eq_of_lt hfp
  rw [altIndex_eq hi he, altMask, h0]
  simp

end

/-- The buckets of a class. -/
def Home (e c b : ℕ) : Prop :=
  b = c % 2 ^ e ∨ b = altIndex (c % 2 ^ e) (fingerprint c) (2 ^ e)

theorem Home.lt (h : Home e c b) (he : e ≤ 32) : b < 2 ^ e := by
  have hc : c % 2 ^ e < 2 ^ e := Nat.mod_lt _ (Nat.two_pow_pos e)
  rcases h with rfl | rfl
  · exact hc
  · exact altIndex_lt hc he _

theorem Home.alt (h : Home e c b) (he : e ≤ 32) :
    Home e c (altIndex b (fingerprint c) (2 ^ e)) := by
  rcases h with rfl | rfl
  · exact Or.inr rfl
  · exact Or.inl (altIndex_altIndex (Nat.mod_lt _ (Nat.two_pow_pos e)) he _)

theorem slotOf_div (hfile : file < 2 ^ 32) : slotOf h file / 2 ^ 32 = fingerprint h := by
  unfold slotOf
  omega

theorem slotOf_mod (hfile : file < 2 ^ 32) : slotOf h file % 2 ^ 32 = file := by
  unfold slotOf
  omega

theorem fingerprint_ne_zero (h : ℕ) : fingerprint h ≠ 0 := by
  unfold fingerprint
  split_ifs <;> omega

end Buckets

/-! ## Occupied places -/

namespace Filter

theorem mem_positions {numBuckets b j : ℕ} :
    (b, j) ∈ positions numBuckets ↔ b < numBuckets ∧ j < slotPerBucket := by
  simp only [positions, List.mem_flatMap, List.mem_map, List.mem_range, Prod.mk.injEq]
  constructor
  · rintro ⟨j', hj', b', hb', rfl, rfl⟩
    exact ⟨hb', hj'⟩
  · rintro ⟨hb, hj⟩
    exact ⟨j, hj, b, hb, rfl, rfl⟩

theorem nodup_positions (numBuckets : ℕ) : (positions numBuckets).Nodup := by
  unfold positions
  rw [List.nodup_flatMap]
  refine ⟨fun j _ => ?_, ?_⟩
  · exact List.nodup_range.map fun b b' h => (Prod.mk.inj h).1
  · refine List.nodup_range.imp_of_mem fun {j j'} _ _ hne => ?_
    intro p hp hp'
    obtain ⟨b, -, rfl⟩ := List.mem_map.mp hp
    obtain ⟨b', -, heq⟩ := List.mem_map.mp hp'
    exact hne (Prod.mk.inj heq).2.symm

/-- The number of slots in use. -/
def occupied (numBuckets : ℕ) (T : Table) : ℕ :=
  (positions numBuckets).countP fun p => T p ≠ 0

theorem occupied_fill {numBuckets b j slot : ℕ} {T : Table} (hb : b < numBuckets)
    (hj : j < slotPerBucket) (hfree : T (b, j) = 0) (hslot : slot ≠ 0) :
    occupied numBuckets (Function.update T (b, j) slot) = occupied numBuckets T + 1 := by
  have hperm := List.perm_cons_erase (mem_positions.mpr ⟨hb, hj⟩)
  unfold occupied
  rw [hperm.countP_eq, hperm.countP_eq, List.countP_cons_of_pos (by simpa using hslot),
    List.countP_cons_of_neg (by simpa using hfree)]
  -- the other places are as they were
  refine congrArg (· + 1) (List.countP_congr fun p hp => ?_)
  rw [Function.update_of_ne ((nodup_positions numBuckets).mem_erase_iff.mp hp).1]

theorem occupied_replace {numBuckets b j slot : ℕ} {T : Table} (hold : T (b, j) ≠ 0)
    (hslot : slot ≠ 0) :
    occupied numBuckets (Function.update T (b, j) slot) = occupied numBuckets T := by
  refine List.countP_congr fun p _ => ?_
  by_cases hp : p = (b, j)
  · rw [hp, Function.update_self, decide_eq_true hslot, decide_eq_true hold]
  · rw [Function.update_of_ne hp]

end Filter

open McfKv.Cuckoo.Filter

/-! ## The walk of `AddImpl` -/

section Walk

variable (rand : ℕ → ℕ)

/-- How a walk of `AddImpl` may end: at a bucket with a free place, or after all visits with
a bucket and a slot in hand that `accept` allows. -/
def WalkEnds (accept : ℕ → ℕ → Prop) (numBuckets : ℕ) :
    ℕ → Bool → Table → ℕ → ℕ → ℕ → Prop
  | 0, _, _, _, i, slot => accept i slot
  | visits + 1, kickout, T, draws, i, slot =>
    (∃ j < slotPerBucket, T (i, j) = 0) ∨
      if kickout then
        let j := rand draws % slotPerBucket
        let old := T (i, j)
        WalkEnds accept numBuckets visits true (Function.update T (i, j) slot) (draws + 1)
          (altIndex i (old / 2 ^ 32) numBuckets) old
      else
        WalkEnds accept numBuckets visits true T draws
          (altIndex i (slot / 2 ^ 32) numBuckets) slot

end Walk

/-! ## Calls that lose nothing -/

namespace Filter

/-- `max_num_keys`. -/
def maxNumKeys : ℕ := 100000

theorem occupied_empty (numBuckets : ℕ) : occupied numBuckets (fun _ => 0) = 0 := by
  simp [occupied]

theorem findInBucket_eq_none {T : Table} {i fp : ℕ} :
    findInBucket T i fp = none ↔ ∀ j < slotPerBucket, T (i, j) / 2 ^ 32 ≠ fp := by
  simp [findInBucket]

theorem findInBucket_eq_some {T : Table} {i fp : ℕ} {p : ℕ × ℕ}
    (hp : findInBucket T i fp = some p) : p.1 = i ∧ p.2 < slotPerBucket ∧ T p / 2 ^ 32 = fp := by
  obtain ⟨j, hj, rfl⟩ := Option.map_eq_some_iff.mp hp
  exact ⟨rfl, List.mem_range.mp (List.mem_of_find?_eq_some hj), by simpa using List.find?_some hj⟩

variable (rand : ℕ → ℕ)

/-- The slot in hand is the new one: the same word, in front of one of its own buckets. -/
def OwnSlot (f : Filter) (h file i slot : ℕ) : Prop :=
  slot = slotOf h file ∧
    (i = indexHash h f.numBuckets ∨
      i = altIndex (indexHash h f.numBuckets) (fingerprint h) f.numBuckets)

/-- The walk of `Add` ends well: with room for the slot in hand, or with the new slot itself
in hand. -/
def AddEnds (f : Filter) (draws h file : ℕ) : Prop :=
  WalkEnds rand (f.OwnSlot h file) f.numBuckets maxCuckoo false f.table draws
    (indexHash h f.numBuckets) (slotOf h file)

/-- Every walk of `TransferData` finds a bucket with room. -/
def Transfers (T : Table) : List (ℕ × ℕ) → Filter → ℕ → Prop
  | [], _, _ => True
  | p :: ps, f, draws =>
    if T p = 0 then Transfers T ps f draws
    else
      let i := indexHash (T p / 2 ^ 32) f.numBuckets
      WalkEnds rand (fun _ _ => False) f.numBuckets maxCuckoo false f.table draws i (T p) ∧
        Transfers T ps (f.addImpl rand draws i (T p)).2.1 (f.addImpl rand draws i (T p)).2.2

/-- What a rehash needs to keep every slot: an `int` can count the buckets, no slot belongs
to class `0`, and the walks of `TransferData` find room. -/
def RehashEnds (f : Filter) (draws : ℕ) : Prop :=
  f.numBuckets < 2 ^ 31 ∧ (∀ j < slotPerBucket, f.table (0, j) / 2 ^ 32 ≠ 1) ∧
    f.grown.Transfers rand f.table (positions f.numBuckets) draws

end Filter

/-! ## A walk that does not end -/

/-- A walk between two buckets that are full of slots with one bucket each comes back to
the table it started from after four kicks. -/
structure Bounces (numBuckets : ℕ) (T : Table) (b b' slot : ℕ) : Prop where
  full : scan T b slot (List.range slotPerBucket) = .full
  full' : scan T b' slot (List.range slotPerBucket) = .full
  back : scan (Function.update T (b, 0) slot) b (T (b, 0)) (List.range slotPerBucket) = .full
  back' : scan (Function.update T (b', 0) slot) b' (T (b', 0)) (List.range slotPerBucket) = .full
  stuck : altIndex b (T (b, 0) / 2 ^ 32) numBuckets = b
  stuck' : altIndex b' (T (b', 0) / 2 ^ 32) numBuckets = b'
  other : altIndex b (slot / 2 ^ 32) numBuckets = b'
  other' : altIndex b' (slot / 2 ^ 32) numBuckets = b

variable {numBuckets i slot b b' draws : ℕ} {T : Table} {rand : ℕ → ℕ}

theorem Bounces.symm (h : Bounces numBuckets T b b' slot) : Bounces numBuckets T b' b slot :=
  ⟨h.full', h.full, h.back', h.back, h.stuck', h.stuck, h.other', h.other⟩

theorem Filter.add_fails {f : Filter} {h file draws' : ℕ} (hwalk : addLoop rand f.numBuckets maxCuckoo
    false f.table draws (indexHash h f.numBuckets) (slotOf h file) =
      ⟨.ioError "failed to insert!", T, draws'⟩) :
    f.add rand draws h file = (.ioError "failed to insert!", { f with table := T }, draws') := by
  unfold Filter.add Filter.addImpl
  rw [hwalk]
  rfl

theorem addLoop_kick {j : ℕ} (hdraw : rand draws % slotPerBucket = j)
    (hfull : scan T i slot (List.range slotPerBucket) = .full) (fuel : ℕ) :
    addLoop rand numBuckets (fuel + 1) true T draws i slot =
      addLoop rand numBuckets fuel true (Function.update T (i, j) slot) (draws + 1)
        (altIndex i (T (i, j) / 2 ^ 32) numBuckets) (T (i, j)) := by
  rw [addLoop, hfull, ← hdraw]
  rfl

/-- Two kicks at a bucket put its first slot back. -/
theorem addLoop_kick_back {i' : ℕ} (hzero : ∀ n ≥ draws, rand n % slotPerBucket = 0)
    (hfull : scan T i slot (List.range slotPerBucket) = .full)
    (hback : scan (Function.update T (i, 0) slot) i (T (i, 0)) (List.range slotPerBucket) = .full)
    (hstuck : altIndex i (T (i, 0) / 2 ^ 32) numBuckets = i)
    (hother : altIndex i (slot / 2 ^ 32) numBuckets = i') (fuel : ℕ) :
    addLoop rand numBuckets (fuel + 2) true T draws i slot =
      addLoop rand numBuckets fuel true T (draws + 2) i' slot := by
  rw [addLoop_kick (hzero draws le_rfl) hfull, hstuck,
    addLoop_kick (hzero (draws + 1) (Nat.le_succ _)) hback, Function.update_self, hother,
    Function.update_idem, Function.update_eq_self]

theorem Bounces.addLoop_period (h : Bounces numBuckets T b b' slot) (fuel : ℕ) :
    ∀ n draws, (∀ m ≥ draws, rand m % slotPerBucket = 0) →
      addLoop rand numBuckets (fuel + 4 * n) true T draws b' slot =
        addLoop rand numBuckets fuel true T (draws + 4 * n) b' slot := by
  intro n
  induction n with
  | zero => exact fun _ _ => rfl
  | succ n ih =>
    intro draws hzero
    change addLoop _ _ (fuel + 4 * n + 2 + 2) _ _ _ _ _ = _
    rw [addLoop_kick_back hzero h.full' h.back' h.stuck' h.other',
      addLoop_kick_back (fun m hm => hzero m (by omega)) h.full h.back h.stuck h.other,
      ih _ fun m hm => hzero m (by omega)]
    congr 1
    omega

/-- After 500 visits the walk holds the first slot of bucket `b`, and drops it. -/
theorem Bounces.addLoop_maxCuckoo (h : Bounces numBuckets T b b' slot) (draws : ℕ) :
    addLoop (fun _ => 0) numBuckets maxCuckoo false T draws b slot =
      ⟨.ioError "failed to insert!", Function.update T (b, 0) slot, draws + 499⟩ := by
  have hfirst : addLoop (fun _ => 0) numBuckets maxCuckoo false T draws b slot =
      addLoop (fun _ => 0) numBuckets (3 + 4 * 124) true T draws b' slot := by
    change addLoop _ _ (499 + 1) _ _ _ _ _ = _
    rw [addLoop, h.full, if_neg (by decide), h.other]
  have hzero : ∀ d, ∀ m ≥ d, (fun _ => 0 : ℕ → ℕ) m % slotPerBucket = 0 := fun _ _ _ => rfl
  rw [hfirst, h.addLoop_period _ _ _ (hzero _),
    addLoop_kick_back (hzero _) h.full' h.back' h.stuck' h.other',
    addLoop_kick (hzero _ (draws + 4 * 124 + 2) le_rfl) h.full, addLoop]

/-- The draws `0, 1, 0, 0, …`. -/
def oneDraw (n : ℕ) : ℕ := if n = 1 then 1 else 0

/-- The table after the kicks at the places `0`, `1` and `0` of a bucket: the first two slots have
changed places. -/
def exchanged (T : Table) (b slot : ℕ) : Table :=
  Function.update (Function.update (Function.update T (b, 0) slot) (b, 1) (T (b, 0))) (b, 0)
    (T (b, 1))

/-- With one other draw the walk holds the new slot after 500 visits. -/
theorem Bounces.addLoop_oneDraw (h : Bounces numBuckets T b b' slot)
    (hnext : scan (Function.update (Function.update T (b', 0) slot) (b', 1) (T (b', 0))) b'
      (T (b', 1)) (List.range slotPerBucket) = .full)
    (hstuck : altIndex b' (T (b', 1) / 2 ^ 32) numBuckets = b')
    (hafter : Bounces numBuckets (exchanged T b' slot) b b' slot) :
    addLoop oneDraw numBuckets maxCuckoo false T 0 b slot =
      ⟨.ioError "failed to insert!", exchanged T b' slot, 499⟩ := by
  have hone : Function.update T (b', 0) slot (b', 1) = T (b', 1) :=
    Function.update_of_ne (by simp) ..
  have hslot : Function.update (Function.update T (b', 0) slot) (b', 1) (T (b', 0)) (b', 0) = slot := by
    rw [Function.update_of_ne (by simp), Function.update_self]
  have hdraws : oneDraw 0 % slotPerBucket = 0 ∧ oneDraw 1 % slotPerBucket = 1 ∧
      oneDraw 2 % slotPerBucket = 0 := by decide
  change addLoop _ _ (4 * 124 + 3 + 1) _ _ _ _ _ = _
  rw [addLoop, h.full, if_neg (by decide), h.other]
  dsimp only
  rw [addLoop_kick hdraws.1 h.full', h.stuck', addLoop_kick hdraws.2.1 h.back', hone, hstuck,
    addLoop_kick hdraws.2.2 hnext, hslot, h.other']
  change addLoop oneDraw numBuckets (0 + 4 * 124) true (exchanged T b' slot) 3 b slot = _
  rw [hafter.symm.addLoop_period _ _ _ fun m hm => by
    rw [oneDraw, if_neg (by omega)]; rfl, addLoop]

end McfKv.Cuckoo
