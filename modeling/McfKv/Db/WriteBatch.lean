import Mathlib.Data.List.Induction
import McfKv.Db.DbFormat

/-!
# Write batches (`db/write_batch.cc`)

A `WriteBatch` is a string: eight bytes for a sequence number, four for the number of
operations, and then the operations one after the other. `Append` concatenates the
operations of two batches and adds their counts; `Iterate` decodes the operations again.

`Holds b ops` says that a batch has the operations `ops`: that is what `Iterate` returns
(`holds_iff`). It is closed under all that the source does to batches. `Put` and `Delete`
limit the lengths of keys and values to 32 bits, and the number of operations to an `int`.
-/

namespace McfKv

open Coding

/-- An operation of a batch. -/
inductive Op where
  | put (key value : Slice)
  | delete (key : Slice)
deriving DecidableEq, Repr

/-- The type of the entry that an operation makes in the memtable. -/
def Op.type : Op → ValueType
  | .put _ _ => .value
  | .delete _ => .deletion

/-- The lengths fit in 32 bits. -/
def Op.Fits : Op → Prop
  | .put key value => key.length < 2 ^ 32 ∧ value.length < 2 ^ 32
  | .delete key => key.length < 2 ^ 32

/-- `class WriteBatch`: its string `rep_`. -/
structure WriteBatch where
  rep : Slice
deriving DecidableEq, Repr

namespace WriteBatch

/-- `kHeader`. -/
def headerSize : ℕ := 12

/-- `WriteBatch::Clear`. -/
def clear : WriteBatch := ⟨List.replicate headerSize 0⟩

/-- A `uint32_t` that becomes an `int`. -/
def toInt (v : ℕ) : ℤ := if v < 2 ^ 31 then v else v - 2 ^ 32

/-- `WriteBatchInternal::Count`. -/
def count (b : WriteBatch) : ℤ := toInt (decodeFixed32 (b.rep.drop 8))

/-- `WriteBatchInternal::SetCount`. -/
def setCount (b : WriteBatch) (n : ℤ) : WriteBatch :=
  ⟨b.rep.take 8 ++ encodeFixed32 (n % 2 ^ 32).toNat ++ b.rep.drop 12⟩

/-- `WriteBatchInternal::Sequence`. -/
def sequence (b : WriteBatch) : ℕ := decodeFixed64 b.rep

/-- `WriteBatchInternal::SetSequence`. -/
def setSequence (b : WriteBatch) (seq : ℕ) : WriteBatch := ⟨encodeFixed64 seq ++ b.rep.drop 8⟩

/-- `WriteBatchInternal::ByteSize`. -/
def byteSize (b : WriteBatch) : ℕ := b.rep.length

/-- `WriteBatch::Put` and `WriteBatch::Delete`. -/
def add (b : WriteBatch) (op : Op) : WriteBatch :=
  let rep := (b.setCount (b.count + 1)).rep ++ [UInt8.ofNat op.type.code]
  match op with
  | .put key value => ⟨putLengthPrefixedSlice (putLengthPrefixedSlice rep key) value⟩
  | .delete key => ⟨putLengthPrefixedSlice rep key⟩

/-- `WriteBatchInternal::Append`. -/
def append (dst src : WriteBatch) : WriteBatch :=
  ⟨(dst.setCount (dst.count + src.count)).rep ++ src.rep.drop headerSize⟩

/-- The loop of `WriteBatch::Iterate`: the operations handed to the handler, and how it ends. -/
def iterateLoop : ℕ → Slice → List Op × Status
  | 0, _ => ([], .ok)
  | _ + 1, [] => ([], .ok)
  | fuel + 1, tag :: input =>
    if tag.toNat = ValueType.value.code then
      match getLengthPrefixedSlice input with
      | none => ([], .corruption "bad WriteBatch Put" "")
      | some (key, input) =>
        match getLengthPrefixedSlice input with
        | none => ([], .corruption "bad WriteBatch Put" "")
        | some (value, input) =>
          let (ops, status) := iterateLoop fuel input
          (.put key value :: ops, status)
    else if tag.toNat = ValueType.deletion.code then
      match getLengthPrefixedSlice input with
      | none => ([], .corruption "bad WriteBatch Delete" "")
      | some (key, input) =>
        let (ops, status) := iterateLoop fuel input
        (.delete key :: ops, status)
    else ([], .corruption "unknown WriteBatch tag" "")

/-- `WriteBatch::Iterate`. Every round of the loop takes a byte at least. -/
def iterate (b : WriteBatch) : List Op × Status :=
  if b.rep.length < headerSize then ([], .corruption "malformed WriteBatch (too small)" "")
  else
    let input := b.rep.drop headerSize
    let (ops, status) := iterateLoop (input.length + 1) input
    if status ≠ .ok then (ops, status)
    else if (ops.length : ℤ) ≠ b.count then (ops, .corruption "WriteBatch has wrong count" "")
    else (ops, .ok)

/-- The entries that `MemTableInserter` adds, from a sequence number on. -/
def entriesFrom (seq : ℕ) (ops : List Op) : List (ℕ × Op) :=
  ops.zipIdx.map fun p => ((seq + p.2) % 2 ^ 64, p.1)

/-- `WriteBatchInternal::InsertInto`: the calls of `MemTable::Add`, and the status. -/
def insertInto (b : WriteBatch) : List (ℕ × Op) × Status :=
  (entriesFrom b.sequence b.iterate.1, b.iterate.2)

/-- `MemTableInserter`: its `sequence_`, and its calls of `MemTable::Add` so far. -/
structure Inserter where
  sequence : ℕ
  added : List (ℕ × Op)

/-- `MemTableInserter::Put` and `MemTableInserter::Delete`. -/
def Inserter.handle (inserter : Inserter) (op : Op) : Inserter where
  sequence := (inserter.sequence + 1) % 2 ^ 64
  added := inserter.added ++ [(inserter.sequence, op)]

/-! ## What a batch holds -/

/-- The bytes behind the header are the operations, one after the other. -/
inductive Parses : Slice → List Op → Prop
  | nil : Parses [] []
  | put {tag : UInt8} {input rest rest' key value : Slice} {ops : List Op}
      (htag : tag.toNat = ValueType.value.code)
      (hkey : getLengthPrefixedSlice input = some (key, rest))
      (hvalue : getLengthPrefixedSlice rest = some (value, rest')) (hrest : Parses rest' ops) :
      Parses (tag :: input) (.put key value :: ops)
  | delete {tag : UInt8} {input rest key : Slice} {ops : List Op}
      (htag : tag.toNat = ValueType.deletion.code)
      (hkey : getLengthPrefixedSlice input = some (key, rest)) (hrest : Parses rest ops) :
      Parses (tag :: input) (.delete key :: ops)

/-- **A batch of operations**, behind any sequence number. -/
structure Holds (b : WriteBatch) (ops : List Op) : Prop where
  header : headerSize ≤ b.rep.length
  count : b.count = ops.length
  parses : Parses (b.rep.drop headerSize) ops

variable {b dst src : WriteBatch} {ops ops' : List Op} {input input' : Slice}

theorem Parses.append (h : Parses input ops) (h' : Parses input' ops') :
    Parses (input ++ input') (ops ++ ops') := by
  induction h with
  | nil => exact h'
  | put htag hkey hvalue _ ih =>
    exact .put htag (getLengthPrefixedSlice_append hkey _)
      (getLengthPrefixedSlice_append hvalue _) ih
  | delete htag hkey _ ih => exact .delete htag (getLengthPrefixedSlice_append hkey _) ih

theorem Parses.length_le (h : Parses input ops) : ops.length ≤ input.length := by
  induction h with
  | nil => exact Nat.le_refl 0
  | put _ hkey hvalue _ ih =>
    exact Nat.succ_le_succ (ih.trans ((getLengthPrefixedSlice_length_le hvalue).trans
      (getLengthPrefixedSlice_length_le hkey)))
  | delete _ hkey _ ih =>
    exact Nat.succ_le_succ (ih.trans (getLengthPrefixedSlice_length_le hkey))

theorem iterateLoop_eq_ok_iff {fuel : ℕ} (hfuel : input.length < fuel) :
    iterateLoop fuel input = (ops, .ok) ↔ Parses input ops := by
  constructor
  · intro h
    induction fuel generalizing input ops with
    | zero => omega
    | succ fuel ih =>
      cases input with
      | nil =>
        cases h
        exact .nil
      | cons tag input =>
        have hlen : input.length < fuel := Nat.lt_of_succ_lt_succ hfuel
        unfold iterateLoop at h
        split_ifs at h with hput hdelete
        · cases hkey : getLengthPrefixedSlice input with
          | none => simp [hkey] at h
          | some p =>
            have hle := getLengthPrefixedSlice_length_le hkey
            cases hvalue : getLengthPrefixedSlice p.2 with
            | none => simp [hkey, hvalue] at h
            | some q =>
              have hle' := getLengthPrefixedSlice_length_le hvalue
              simp only [hkey, hvalue, Prod.mk.injEq] at h
              obtain ⟨rfl, hstatus⟩ := h
              exact .put hput hkey hvalue (ih (by omega) (Prod.ext rfl hstatus))
        · cases hkey : getLengthPrefixedSlice input with
          | none => simp [hkey] at h
          | some p =>
            have hle := getLengthPrefixedSlice_length_le hkey
            simp only [hkey, Prod.mk.injEq] at h
            obtain ⟨rfl, hstatus⟩ := h
            exact .delete hdelete hkey (ih (by omega) (Prod.ext rfl hstatus))
        · simp at h
  · intro h
    induction h generalizing fuel with
    | nil =>
      obtain ⟨fuel, rfl⟩ := Nat.exists_eq_add_of_lt hfuel
      simp [iterateLoop]
    | put htag hkey hvalue _ ih =>
      obtain ⟨fuel, rfl⟩ := Nat.exists_eq_add_of_lt hfuel
      have hle := getLengthPrefixedSlice_length_le hkey
      have hle' := getLengthPrefixedSlice_length_le hvalue
      rw [iterateLoop, if_pos htag, hkey]
      dsimp only
      rw [hvalue]
      dsimp only
      rw [ih (by simp at hfuel ⊢; omega)]
    | delete htag hkey _ ih =>
      obtain ⟨fuel, rfl⟩ := Nat.exists_eq_add_of_lt hfuel
      have hle := getLengthPrefixedSlice_length_le hkey
      rw [iterateLoop, if_neg (by rw [htag]; decide), if_pos htag, hkey]
      dsimp only
      rw [ih (by simp at hfuel ⊢; omega)]

/-- **`Iterate`** returns the operations that a batch holds. -/
theorem holds_iff : b.Holds ops ↔ b.iterate = (ops, .ok) := by
  have hloop : iterateLoop ((b.rep.drop headerSize).length + 1) (b.rep.drop headerSize) =
      (ops, .ok) ↔ Parses (b.rep.drop headerSize) ops := iterateLoop_eq_ok_iff (Nat.lt_succ_self _)
  unfold WriteBatch.iterate
  dsimp only
  constructor
  · rintro ⟨hheader, hcount, hparses⟩
    rw [if_neg (by omega), hloop.mpr hparses]
    simp [hcount]
  · intro h
    split_ifs at h with hheader hstatus hcount
    · exact absurd (congrArg Prod.snd h) (by simp)
    · exact absurd (congrArg Prod.snd h) hstatus
    · exact absurd (congrArg Prod.snd h) (by simp)
    · obtain ⟨rfl, -⟩ := Prod.mk.inj h
      exact ⟨by omega, (not_not.mp hcount).symm, hloop.mp (Prod.ext rfl (not_not.mp hstatus))⟩

/-! ## What the operations on batches do -/

theorem toInt_of_lt {v : ℕ} (h : v < 2 ^ 31) : toInt v = v := if_pos h

theorem toInt_lt (v : ℕ) (h : v < 2 ^ 32) : toInt v < 2 ^ 31 := by
  unfold toInt
  split_ifs <;> omega

theorem Holds.length_lt (h : b.Holds ops) : ops.length < 2 ^ 31 := by
  have hlt : decodeFixed32 (b.rep.drop 8) < 2 ^ 32 := decodeFixed32_lt _
  have := toInt_lt _ hlt
  have hcount := h.count
  unfold WriteBatch.count at hcount
  omega

theorem Holds.length_le (h : b.Holds ops) : ops.length ≤ b.byteSize :=
  h.parses.length_le.trans (by simp [byteSize])

theorem Holds.setCount (h : b.Holds ops) (hparses : Parses input ops')
    (hlen : ops.length + ops'.length < 2 ^ 31) :
    (⟨(b.setCount (ops.length + ops'.length)).rep ++ input⟩ : WriteBatch).Holds (ops ++ ops') := by
  have hheader := h.header
  have htake : (b.rep.take 8).length = 8 := by
    rw [List.length_take]
    exact Nat.min_eq_left (by unfold headerSize at hheader; omega)
  have hmod : (((ops.length : ℤ) + ops'.length) % 2 ^ 32).toNat = ops.length + ops'.length := by
    omega
  have hrep : (b.setCount (ops.length + ops'.length)).rep ++ input =
      b.rep.take 8 ++ (encodeFixed32 (ops.length + ops'.length) ++ (b.rep.drop 12 ++ input)) := by
    unfold WriteBatch.setCount
    rw [hmod]
    simp
  rw [hrep]
  refine ⟨?_, ?_, ?_⟩
  · rw [List.length_append, List.length_append, htake, length_encodeFixed32]
    unfold headerSize
    omega
  · unfold WriteBatch.count
    dsimp only
    rw [List.drop_left' htake, decodeFixed32_append, Nat.mod_eq_of_lt (by omega),
      toInt_of_lt hlen, List.length_append]
  · dsimp only
    rw [← List.append_assoc, List.drop_left' (by simp [htake, headerSize])]
    exact h.parses.append hparses

theorem clear_holds : clear.Holds [] := holds_iff.mpr (by decide)

/-- **`Append`** concatenates the operations. -/
theorem Holds.append (hdst : dst.Holds ops) (hsrc : src.Holds ops')
    (hlen : ops.length + ops'.length < 2 ^ 31) : (dst.append src).Holds (ops ++ ops') := by
  have hset := hdst.setCount hsrc.parses hlen
  unfold WriteBatch.append
  rwa [hdst.count, hsrc.count]

theorem Holds.setSequence (h : b.Holds ops) (seq : ℕ) : (b.setSequence seq).Holds ops := by
  have hheader := h.header
  unfold headerSize at hheader
  have hcount : (b.setSequence seq).count = b.count := by
    unfold WriteBatch.setSequence WriteBatch.count
    dsimp only
    rw [List.drop_left' (length_encodeFixed64 seq)]
  have hdrop : (b.setSequence seq).rep.drop headerSize = b.rep.drop headerSize := by
    unfold WriteBatch.setSequence headerSize
    dsimp only
    rw [show 12 = 8 + 4 from rfl, ← List.drop_drop, List.drop_left' (length_encodeFixed64 seq),
      List.drop_drop]
  refine ⟨?_, hcount.trans h.count, hdrop ▸ h.parses⟩
  unfold WriteBatch.setSequence headerSize
  simp only [List.length_append, length_encodeFixed64, List.length_drop]
  omega

theorem sequence_setSequence (b : WriteBatch) (seq : ℕ) :
    (b.setSequence seq).sequence = seq % 2 ^ 64 :=
  decodeFixed64_append seq _

theorem putLengthPrefixedSlice_eq (dst value : Slice) :
    putLengthPrefixedSlice dst value = dst ++ putLengthPrefixedSlice [] value := by
  simp [putLengthPrefixedSlice, putVarint32]

/-- **`Put` and `Delete`** add an operation. -/
theorem Holds.add (h : b.Holds ops) {op : Op} (hop : op.Fits) (hlen : ops.length + 1 < 2 ^ 31) :
    (b.add op).Holds (ops ++ [op]) := by
  have hcount : b.count + 1 = (ops.length : ℤ) + ([op].length : ℕ) := by rw [h.count]; simp
  unfold WriteBatch.add
  rw [hcount]
  cases op with
  | put key value =>
    have hvalue : getLengthPrefixedSlice (putLengthPrefixedSlice [] value) = some (value, []) := by
      simpa using getLengthPrefixedSlice_put hop.2 []
    have htag : (UInt8.ofNat ValueType.value.code).toNat = ValueType.value.code := by decide
    have hparses := Parses.put htag (getLengthPrefixedSlice_put hop.1 _) hvalue .nil
    dsimp only
    rw [putLengthPrefixedSlice_eq, putLengthPrefixedSlice_eq _ key]
    simpa [Op.type] using h.setCount hparses (by simpa using hlen)
  | delete key =>
    have hkey : getLengthPrefixedSlice (putLengthPrefixedSlice [] key) = some (key, []) := by
      simpa using getLengthPrefixedSlice_put hop []
    have htag : (UInt8.ofNat ValueType.deletion.code).toNat = ValueType.deletion.code := by decide
    have hparses := Parses.delete htag hkey .nil
    dsimp only
    rw [putLengthPrefixedSlice_eq]
    simpa [Op.type] using h.setCount hparses (by simpa using hlen)

/-! ## Whole batches -/

/-- A batch after a sequence of calls of `Put` and `Delete`. -/
def ofOps (ops : List Op) : WriteBatch := ops.foldl add clear

theorem ofOps_holds {ops : List Op} (hfits : ∀ op ∈ ops, op.Fits) (hlen : ops.length < 2 ^ 31) :
    (ofOps ops).Holds ops := by
  induction ops using List.reverseRecOn with
  | nil => exact clear_holds
  | append_singleton ops op ih =>
    rw [List.length_append, List.length_singleton] at hlen
    have hops := ih (fun o ho => hfits o (List.mem_append_left _ ho)) (by omega)
    unfold ofOps
    rw [List.foldl_append]
    exact hops.add (hfits op (by simp)) hlen

theorem entriesFrom_append (seq : ℕ) (ops ops' : List Op) : entriesFrom seq (ops ++ ops') =
    entriesFrom seq ops ++ entriesFrom (seq + ops.length) ops' := by
  unfold entriesFrom
  rw [List.zipIdx_append, List.map_append, Nat.zero_add,
    List.zipIdx_eq_map_add (i := ops.length), List.map_map]
  congr 1
  apply List.map_congr_left
  intro p _
  simp [Nat.add_assoc]

theorem entriesFrom_mod (seq : ℕ) (ops : List Op) :
    entriesFrom (seq % 2 ^ 64) ops = entriesFrom seq ops := by
  simp [entriesFrom]

theorem foldl_handle (ops : List Op) {inserter : Inserter} (hseq : inserter.sequence < 2 ^ 64) :
    (ops.foldl Inserter.handle inserter).added =
      inserter.added ++ entriesFrom inserter.sequence ops := by
  induction ops generalizing inserter with
  | nil => simp [entriesFrom]
  | cons op ops ih =>
    have hone : entriesFrom inserter.sequence [op] = [(inserter.sequence, op)] := by
      simpa [entriesFrom] using hseq
    rw [List.foldl_cons, ih (Nat.mod_lt _ (by norm_num)), ← List.singleton_append,
      entriesFrom_append, hone]
    simp only [Inserter.handle, entriesFrom_mod, List.append_assoc, List.length_singleton]

theorem insertInto_eq (b : WriteBatch) : b.insertInto =
    ((b.iterate.1.foldl Inserter.handle ⟨b.sequence, []⟩).added, b.iterate.2) := by
  rw [foldl_handle _ (decodeFixed64_lt b.rep), List.nil_append]
  rfl

theorem getElem?_entriesFrom (seq : ℕ) (ops : List Op) (i : ℕ) :
    (entriesFrom seq ops)[i]? = ops[i]?.map fun op => ((seq + i) % 2 ^ 64, op) := by
  unfold entriesFrom
  rw [List.getElem?_map, List.getElem?_zipIdx]
  cases ops[i]? <;> simp

theorem sequence_append (hheader : headerSize ≤ dst.rep.length) :
    (dst.append src).sequence = dst.sequence := by
  have htake : (dst.rep.take 8).length = 8 := by
    rw [List.length_take]
    exact Nat.min_eq_left (by unfold headerSize at hheader; omega)
  unfold WriteBatch.append WriteBatch.setCount WriteBatch.sequence decodeFixed64
  dsimp only
  rw [List.append_assoc, List.append_assoc, List.take_left' htake]

/-- **Batches are read back.** `Iterate` returns the operations that were put into a batch, in their
order. `Append` concatenates the operations of any two batches that `Iterate` accepts, and adds
their counts. `InsertInto` gives the operations of any such batch the numbers that follow
`Sequence`, one to each. -/
theorem writeBatch_roundTrip :
    (∀ ops : List Op, ops.length < 2 ^ 31 → (∀ op ∈ ops, op.Fits) →
      (ofOps ops).iterate = (ops, .ok) ∧ (ofOps ops).count = ops.length) ∧
    (∀ (dst src : WriteBatch) (ops ops' : List Op), dst.iterate = (ops, .ok) →
      src.iterate = (ops', .ok) → (ops ++ ops').length < 2 ^ 31 →
        (dst.append src).iterate = (ops ++ ops', .ok) ∧
          (dst.append src).count = (ops ++ ops').length ∧
          (dst.append src).sequence = dst.sequence) ∧
    ∀ (b : WriteBatch) (ops : List Op), b.iterate = (ops, .ok) →
      b.insertInto = ((ops.foldl Inserter.handle ⟨b.sequence, []⟩).added, .ok) ∧
        b.insertInto.1.length = ops.length ∧
        ∀ i, b.insertInto.1[i]? = ops[i]?.map fun op => ((b.sequence + i) % 2 ^ 64, op) := by
  refine ⟨fun ops hlen hfits => ?_, fun dst src ops ops' hdst hsrc hlen => ?_, fun b ops hb => ?_⟩
  · have hops := ofOps_holds hfits hlen
    exact ⟨holds_iff.mp hops, hops.count⟩
  · have hdst := holds_iff.mpr hdst
    have hboth := hdst.append (holds_iff.mpr hsrc) (by rwa [List.length_append] at hlen)
    exact ⟨holds_iff.mp hboth, hboth.count, sequence_append hdst.header⟩
  · refine ⟨by rw [insertInto_eq, hb], ?_, fun i => ?_⟩
    · simp [insertInto, hb, entriesFrom]
    · rw [insertInto, hb, getElem?_entriesFrom]

/-- A batch with a `Put` and a `Delete`, to which one with a `Put` is appended. -/
theorem writeBatch_roundTrip_appended :
    let ops : List Op := [.put [1] [2], .delete [3]]
    ((ofOps ops).append (ofOps [.put [4] [5]])).iterate = (ops ++ [.put [4] [5]], .ok) ∧
      ((ofOps ops).append (ofOps [.put [4] [5]])).insertInto.1.length = 3 := by
  intro ops
  obtain ⟨hround, happend, hinsert⟩ := writeBatch_roundTrip
  have hdst := (hround ops (by decide) (by simp [ops, Op.Fits])).1
  have hsrc := (hround [.put [4] [5]] (by decide) (by simp [Op.Fits])).1
  have hboth := (happend _ _ _ _ hdst hsrc (by decide)).1
  exact ⟨hboth, (hinsert _ _ hboth).2.1⟩

end WriteBatch

end McfKv
