import Mathlib.Data.List.Infix
import McfKv.Db.Log

/-!
# The physical records of a log (`db/log_writer.cc`)

What a writer appends depends on its records and on its block offset alone. `fragments` is the
list of the physical records, each with the trailer in front of it; `addRecords_eq` says that the
writer appends their bytes. `Chops` is the shape of those of one record: all but the last fill
their block.

The writer is told a block offset when a file is reused. It goes on behind part of a trailer as
behind all of it (`replicate_append_fragmentBytes`), and fills a block with too little room for a
header (`fragmentBytes_fragments_filled`).
-/

namespace McfKv.Log

namespace Reader

/-- What the writer puts in front of a physical record at offset `o`. -/
def trailer (o : ℕ) : Slice :=
  if blockSize - o < headerSize then List.replicate (blockSize - o) 0 else []

/-- The offset behind the trailer. -/
def behindTrailer (o : ℕ) : ℕ := if blockSize - o < headerSize then 0 else o

end Reader

open Reader

@[simp] theorem length_header {extend : UInt32 → Slice → UInt32} (t : RecordType)
    (payload : Slice) : (header extend t payload).length = headerSize := by
  simp [header, headerSize]

theorem switchBlock_eq (w : Writer) :
    w.switchBlock = ⟨w.dest ++ trailer w.blockOffset, behindTrailer w.blockOffset⟩ := by
  unfold Writer.switchBlock trailer behindTrailer
  dsimp only
  split_ifs
  · rfl
  · rw [List.append_nil]

variable {o i : ℕ} {isBegin : Bool} {left : Slice}

theorem behindTrailer_le (ho : o ≤ blockSize) : behindTrailer o + headerSize ≤ blockSize := by
  have hsize : headerSize ≤ blockSize := by decide
  unfold behindTrailer
  split_ifs <;> omega

theorem length_trailer_lt (o : ℕ) : (trailer o).length < headerSize := by
  unfold trailer
  split_ifs with htrailer
  · rwa [List.length_replicate]
  · decide

theorem trailer_behindTrailer (o : ℕ) : trailer (behindTrailer o) = [] := by
  unfold trailer behindTrailer
  split_ifs with htrailer hzero
  · exact absurd hzero (by decide)
  · rfl
  · rfl

theorem behindTrailer_behindTrailer (o : ℕ) :
    behindTrailer (behindTrailer o) = behindTrailer o := by
  unfold behindTrailer
  split_ifs <;> rfl

/-! ## Physical records -/

section Fragments

variable (extend : UInt32 → Slice → UInt32)

/-- A physical record: how many bytes of a trailer are in front of it, the offset of its header
in the block, its type and its payload. -/
structure Fragment where
  leftover : ℕ
  offset : ℕ
  type : RecordType
  payload : Slice
deriving DecidableEq

namespace Fragment

/-- The physical record that a writer with block offset `o` writes. -/
def placed (o : ℕ) (t : RecordType) (payload : Slice) : Fragment where
  leftover := (trailer o).length
  offset := behindTrailer o
  type := t
  payload := payload

variable (f : Fragment)

def body : Slice := header extend f.type f.payload ++ f.payload

def bytes : Slice := List.replicate f.leftover 0 ++ f.body extend

def size : ℕ := f.leftover + (headerSize + f.payload.length)

/-- The block offset of the writer behind the physical record. -/
def behind : ℕ := f.offset + headerSize + f.payload.length

end Fragment

/-- The physical records that the loop of `AddRecord` writes. -/
def fragmentsLoop : ℕ → ℕ → Bool → Slice → List Fragment
  | 0, _, _, _ => []
  | fuel + 1, o, isBegin, left =>
    let avail := blockSize - behindTrailer o - headerSize
    let fragment := left.take avail
    let isEnd := left.length == fragment.length
    let f := Fragment.placed o (fragmentType isBegin isEnd) fragment
    f :: if isEnd then [] else fragmentsLoop fuel f.behind false (left.drop avail)

/-- The block offset behind several physical records. -/
def behind (o : ℕ) (fs : List Fragment) : ℕ := fs.foldl (fun _ f => f.behind) o

/-- The physical records of a record. -/
def recordFragments (o : ℕ) (record : Slice) : List Fragment :=
  fragmentsLoop (record.length + 2) o true record

/-- The physical records that a writer with block offset `o` writes. -/
def fragments : ℕ → List Slice → List Fragment
  | _, [] => []
  | o, record :: records =>
    recordFragments o record ++ fragments (behind o (recordFragments o record)) records

def fragmentBytes (fs : List Fragment) : Slice := fs.flatMap (Fragment.bytes extend)

end Fragments

variable {extend : UInt32 → Slice → UInt32}

/-! ## What the writer writes -/

theorem trailer_eq_replicate (o : ℕ) : trailer o = List.replicate (trailer o).length 0 := by
  unfold trailer
  split_ifs <;> simp

@[simp] theorem Fragment.bytes_placed (o : ℕ) (t : RecordType) (payload : Slice) :
    (Fragment.placed o t payload).bytes extend =
      trailer o ++ (header extend t payload ++ payload) := by
  show List.replicate (trailer o).length 0 ++ _ = _
  rw [← trailer_eq_replicate]
  rfl

@[simp] theorem Fragment.length_bytes (f : Fragment) : (f.bytes extend).length = f.size := by
  simp [Fragment.bytes, Fragment.body, Fragment.size]

theorem Fragment.take_body (f : Fragment) (j : ℕ) : (f.body extend).take (headerSize + j) =
    header extend f.type f.payload ++ f.payload.take j := by
  have hlen : (header extend f.type f.payload).length = headerSize := length_header _ _
  rw [Fragment.body, ← hlen, List.take_length_add_append]

theorem Fragment.lt_length_bytes_append (f : Fragment) (more : Slice) :
    more.length < (f.bytes extend ++ more).length := by
  have hseven : headerSize = 7 := rfl
  rw [List.length_append, Fragment.length_bytes, Fragment.size]
  omega

theorem fragmentBytes_cons (f : Fragment) (fs : List Fragment) :
    fragmentBytes extend (f :: fs) = f.bytes extend ++ fragmentBytes extend fs :=
  List.flatMap_cons

theorem fragmentBytes_singleton (f : Fragment) : fragmentBytes extend [f] = f.bytes extend :=
  List.flatMap_singleton _ _

theorem fragmentBytes_append (fs gs : List Fragment) :
    fragmentBytes extend (fs ++ gs) = fragmentBytes extend fs ++ fragmentBytes extend gs :=
  List.flatMap_append

theorem behind_append (o : ℕ) (fs gs : List Fragment) :
    behind o (fs ++ gs) = behind (behind o fs) gs :=
  List.foldl_append

theorem addRecordLoop_eq (fuel : ℕ) (w : Writer) (isBegin : Bool) (left : Slice) :
    w.addRecordLoop extend fuel isBegin left =
      ⟨w.dest ++ fragmentBytes extend (fragmentsLoop fuel w.blockOffset isBegin left),
        behind w.blockOffset (fragmentsLoop fuel w.blockOffset isBegin left)⟩ := by
  induction fuel generalizing w isBegin left with
  | zero => simp [Writer.addRecordLoop, fragmentsLoop, fragmentBytes, behind]
  | succ fuel ih =>
    rw [Writer.addRecordLoop, switchBlock_eq, fragmentsLoop]
    dsimp only
    set fragment := left.take (blockSize - behindTrailer w.blockOffset - headerSize)
    have hemit : ∀ t, (⟨w.dest ++ trailer w.blockOffset, behindTrailer w.blockOffset⟩ :
        Writer).emitPhysicalRecord extend t fragment =
        ⟨w.dest ++ (Fragment.placed w.blockOffset t fragment).bytes extend,
          (Fragment.placed w.blockOffset t fragment).behind⟩ := by
      intro t
      rw [Fragment.bytes_placed]
      simp [Writer.emitPhysicalRecord, Fragment.behind, Fragment.placed]
    cases left.length == fragment.length with
    | true =>
      rw [if_pos rfl, if_pos rfl, hemit, fragmentBytes_cons]
      simp [fragmentBytes, behind]
    | false =>
      rw [if_neg Bool.false_ne_true, if_neg Bool.false_ne_true, hemit, ih, fragmentBytes_cons,
        List.append_assoc]
      rfl

theorem addRecord_eq (w : Writer) (record : Slice) : w.addRecord extend record =
    ⟨w.dest ++ fragmentBytes extend (recordFragments w.blockOffset record),
      behind w.blockOffset (recordFragments w.blockOffset record)⟩ :=
  addRecordLoop_eq _ w true record

theorem addRecords_eq (w : Writer) (records : List Slice) : w.addRecords extend records =
    ⟨w.dest ++ fragmentBytes extend (fragments w.blockOffset records),
      behind w.blockOffset (fragments w.blockOffset records)⟩ := by
  induction records generalizing w with
  | nil => simp [Writer.addRecords, fragments, fragmentBytes, behind]
  | cons record records ih =>
    have hstep : w.addRecords extend (record :: records) =
        (w.addRecord extend record).addRecords extend records := rfl
    rw [hstep, ih, addRecord_eq, fragments, fragmentBytes_append, behind_append, List.append_assoc]

/-- The physical records of a record, the rest of which is `left`. -/
inductive Chops : ℕ → Bool → Slice → List Fragment → Prop where
  | last {o : ℕ} {isBegin : Bool} {payload : Slice} (ho : o ≤ blockSize)
      (hfits : (Fragment.placed o (fragmentType isBegin true) payload).behind ≤ blockSize) :
      Chops o isBegin payload [Fragment.placed o (fragmentType isBegin true) payload]
  | more {o : ℕ} {isBegin : Bool} {payload left : Slice} {fs : List Fragment} (ho : o ≤ blockSize)
      (hfills : (Fragment.placed o (fragmentType isBegin false) payload).behind = blockSize)
      (hrest : Chops blockSize false left fs) :
      Chops o isBegin (payload ++ left)
        (Fragment.placed o (fragmentType isBegin false) payload :: fs)

theorem fragmentsLoop_chops (fuel : ℕ) (isBegin : Bool) (left : Slice) (ho : o ≤ blockSize)
    (hfuel : left.length + 2 ≤ fuel ∨
      left.length + 1 ≤ fuel ∧ behindTrailer o + headerSize < blockSize) :
    Chops o isBegin left (fragmentsLoop fuel o isBegin left) := by
  induction fuel generalizing o isBegin left with
  | zero => omega
  | succ fuel ih =>
    have hroom := behindTrailer_le ho
    rw [fragmentsLoop]
    set avail := blockSize - behindTrailer o - headerSize with havail
    have hlen : (left.take avail).length = min avail left.length := List.length_take
    cases hend : left.length == (left.take avail).length with
    | true =>
      rw [beq_iff_eq] at hend
      have hall : left.take avail = left := List.take_of_length_le (by omega)
      rw [if_pos rfl, hall]
      exact .last ho (by simp only [Fragment.behind, Fragment.placed]; omega)
    | false =>
      rw [beq_eq_false_iff_ne] at hend
      have hfills : (Fragment.placed o (fragmentType isBegin false) (left.take avail)).behind =
          blockSize := by
        simp only [Fragment.behind, Fragment.placed]
        omega
      have hrest := ih false (left.drop avail) le_rfl (Or.inr ⟨by
        rw [List.length_drop]
        omega, by decide⟩)
      rw [if_neg Bool.false_ne_true, hfills]
      nth_rw 1 [← List.take_append_drop avail left]
      exact .more ho hfills hrest

theorem recordFragments_chops (ho : o ≤ blockSize) (record : Slice) :
    Chops o true record (recordFragments o record) :=
  fragmentsLoop_chops _ true record ho (Or.inl le_rfl)

variable {fs : List Fragment}

theorem Chops.behind_le (h : Chops o isBegin left fs) : behind o fs ≤ blockSize := by
  induction h with
  | last _ hfits => exact hfits
  | more _ hfills _ ih =>
    show behind (Fragment.behind _) _ ≤ _
    rw [hfills]
    exact ih

theorem Chops.length_pos (h : Chops o isBegin left fs) : 0 < (fragmentBytes extend fs).length := by
  cases h <;>
  · rw [fragmentBytes_cons]
    exact Nat.zero_lt_of_lt (Fragment.lt_length_bytes_append _ _)

theorem behind_placed_mod (ho : o ≤ blockSize) (t : RecordType) (payload : Slice) :
    ((Fragment.placed o t payload).behind) % blockSize =
      (o + (Fragment.placed o t payload).size) % blockSize := by
  simp only [Fragment.behind, Fragment.placed, Fragment.size, trailer, behindTrailer]
  split_ifs with htrailer
  · rw [List.length_replicate, show o + (blockSize - o + (headerSize + payload.length)) =
      0 + headerSize + payload.length + blockSize by omega, Nat.add_mod_right]
  · rw [List.length_nil]
    congr 1
    omega

@[simp] theorem length_fragmentBytes_cons (f : Fragment) (fs : List Fragment) :
    (fragmentBytes extend (f :: fs)).length = f.size + (fragmentBytes extend fs).length := by
  rw [fragmentBytes_cons, List.length_append, Fragment.length_bytes]

variable (extend) in
theorem Chops.behind_mod (h : Chops o isBegin left fs) :
    behind o fs % blockSize = (o + (fragmentBytes extend fs).length) % blockSize := by
  induction h with
  | last ho hfits =>
    rw [length_fragmentBytes_cons]
    exact behind_placed_mod ho _ _
  | @more o isBegin payload left fs ho hfills hrest ih =>
    have hmod := Nat.add_mod_eq_add_mod_right (fragmentBytes extend fs).length
      (behind_placed_mod ho (fragmentType isBegin false) payload)
    rw [hfills, Nat.add_assoc, ← length_fragmentBytes_cons] at hmod
    rw [← hmod, ← ih, ← hfills]
    rfl

theorem fragments_append (o : ℕ) (records appended : List Slice) :
    fragments o (records ++ appended) =
      fragments o records ++ fragments (behind o (fragments o records)) appended := by
  induction records generalizing o with
  | nil => rfl
  | cons record records ih =>
    rw [List.cons_append, fragments, ih, fragments, behind_append, List.append_assoc]

variable (extend) in
theorem behind_fragments (ho : o ≤ blockSize) (records : List Slice) :
    behind o (fragments o records) ≤ blockSize ∧ behind o (fragments o records) % blockSize =
        (o + (fragmentBytes extend (fragments o records)).length) % blockSize := by
  induction records generalizing o with
  | nil => exact ⟨ho, rfl⟩
  | cons record records ih =>
    have hchops := recordFragments_chops ho record
    obtain ⟨hle, hmod⟩ := ih hchops.behind_le
    rw [fragments, behind_append, fragmentBytes_append, List.length_append]
    refine ⟨hle, hmod.trans ?_⟩
    rw [← Nat.add_assoc]
    exact Nat.add_mod_eq_add_mod_right _ (hchops.behind_mod extend)

/-! ## Behind a trailer -/

/-- A writer in a trailer and one behind it differ in the first physical record only. -/
theorem recordFragments_behindTrailer (o : ℕ) (record : Slice) :
    ∃ t payload fs, recordFragments o record = .placed o t payload :: fs ∧
      recordFragments (behindTrailer o) record = .placed (behindTrailer o) t payload :: fs := by
  have hbehind : ∀ t payload, (Fragment.placed (behindTrailer o) t payload).behind =
      (Fragment.placed o t payload).behind := by
    intro t payload
    simp only [Fragment.behind, Fragment.placed, behindTrailer_behindTrailer]
  refine ⟨_, _, _, rfl, ?_⟩
  unfold recordFragments
  rw [fragmentsLoop, behindTrailer_behindTrailer, hbehind]

theorem fragmentBytes_fragments_cons (o : ℕ) (record : Slice) (records : List Slice) :
    fragmentBytes extend (fragments o (record :: records)) =
      trailer o ++ fragmentBytes extend (fragments (behindTrailer o) (record :: records)) := by
  obtain ⟨t, payload, fs, hfs, hfs'⟩ := recordFragments_behindTrailer o record
  have hbehind : behind (behindTrailer o) (.placed (behindTrailer o) t payload :: fs) =
      behind o (.placed o t payload :: fs) := by
    show behind (Fragment.behind _) fs = behind (Fragment.behind _) fs
    simp only [Fragment.behind, Fragment.placed, behindTrailer_behindTrailer]
  rw [fragments, fragments, hfs, hfs', hbehind, fragmentBytes_append, fragmentBytes_append,
    fragmentBytes_cons, fragmentBytes_cons, Fragment.bytes_placed, Fragment.bytes_placed,
    trailer_behindTrailer, List.nil_append]
  simp only [List.append_assoc]

theorem trailer_split (ho : o ≤ blockSize) (hi : i ≤ (trailer o).length) :
    List.replicate i 0 ++ trailer ((o + i) % blockSize) = trailer o ∧
      behindTrailer ((o + i) % blockSize) = behindTrailer o := by
  have hsize : blockSize = 32768 ∧ headerSize = 7 := ⟨rfl, rfl⟩
  unfold trailer at hi ⊢
  unfold behindTrailer
  by_cases htrailer : blockSize - o < headerSize
  · rw [if_pos htrailer, List.length_replicate] at hi
    rw [if_pos htrailer, if_pos htrailer]
    rcases Nat.lt_or_eq_of_le (Nat.add_le_of_le_sub' ho hi) with hlt | heq
    · rw [Nat.mod_eq_of_lt hlt, if_pos (by omega), if_pos (by omega),
        List.replicate_append_replicate]
      exact ⟨by congr 1; omega, rfl⟩
    · rw [heq, Nat.mod_self, if_neg (by omega), if_neg (by omega), List.append_nil]
      exact ⟨by congr 1; omega, rfl⟩
  · rw [if_neg htrailer, List.length_nil] at hi
    obtain rfl : i = 0 := Nat.le_zero.mp hi
    rw [Nat.add_zero, Nat.mod_eq_of_lt (by omega)]
    exact ⟨rfl, rfl⟩

variable (extend) in
/-- What a writer appends that is told the length of the file, behind part of a trailer. -/
theorem replicate_append_fragmentBytes (ho : o ≤ blockSize) (hi : i ≤ (trailer o).length)
    (record : Slice) (records : List Slice) : List.replicate i 0 ++
        fragmentBytes extend (fragments ((o + i) % blockSize) (record :: records)) =
      fragmentBytes extend (fragments o (record :: records)) := by
  obtain ⟨htrailer, hbehind⟩ := trailer_split ho hi
  rw [fragmentBytes_fragments_cons, fragmentBytes_fragments_cons o, ← List.append_assoc, htrailer,
    hbehind]

theorem fragmentBytes_fragments_filled (hroom : blockSize - o < headerSize) (record : Slice)
    (records : List Slice) : fragmentBytes extend (fragments o (record :: records)) =
      List.replicate (blockSize - o) 0 ++
        fragmentBytes extend (fragments 0 (record :: records)) := by
  rw [fragmentBytes_fragments_cons, trailer, behindTrailer, if_pos hroom, if_pos hroom]

theorem recordFragments_nil (o : ℕ) : recordFragments o [] = [.placed o .full []] := by
  unfold recordFragments
  rw [List.length_nil, fragmentsLoop]
  simp [fragmentType]

theorem fragmentBytes_fragments_empty (hroom : headerSize ≤ blockSize - o) :
    fragmentBytes extend (fragments o [[]]) = header extend .full [] := by
  have hfragments : fragments o [[]] = [.placed o .full []] := by
    rw [fragments, recordFragments_nil, fragments, List.append_nil]
  have htrailer : trailer o = [] := if_neg (Nat.not_lt.mpr hroom)
  have hnone : fragmentBytes extend [] = [] := rfl
  rw [hfragments, fragmentBytes_cons, Fragment.bytes_placed, htrailer, hnone, List.nil_append,
    List.append_nil, List.append_nil]

theorem fragments_zero (records : List Slice) :
    fragments 0 records = fragments blockSize records := by
  cases records with
  | nil => rfl
  | cons record records =>
    obtain ⟨t, payload, fs, hfs, hfs'⟩ := recordFragments_behindTrailer blockSize record
    have hzero : behindTrailer blockSize = 0 := rfl
    rw [hzero] at hfs'
    rw [fragments, fragments, hfs, hfs']
    rfl

end McfKv.Log
