import McfKv.Db.DBImpl

/-!
# Updates (`DBImpl::Update` in `db/db_impl.cc`)

`Update` is meant to write a key only if the database has a value for it. It looks in the same
places as `Get`, but it takes any sign of the key for a value:

* `MemTable::Get` returns `true` for a deletion, too;
* the index leads to a file also when the newest entry of the key there is a deletion, when the
  file has only another key with the same number, and when the file cannot be read.

And it returns `OK` in every case, also when the `Put` that it has made has failed.

`State.Finds` is the entry that a read finds, the newest visible one in the first place that has
one; `Wf.get_isOk_iff` and `Wf.exists_iff` say what `Get` and `Update` make of it. `updates_iff` then
says when an update does what it should: the entry that is found is a value and the write succeeds,
or there is no sign of the key at all.
-/

namespace McfKv.DBImpl

open Coding (fastAtoi)

/-- The results of the parts of a write that can fail: `MakeRoomForWrite` and the append to the
log. -/
structure WriteIo where
  makeRoom : Status
  addRecord : Status

/-- `DBImpl::Put` with its status. The sequence number is used up also when the log could not be
written. -/
def State.put (s : State) (io : WriteIo) (userKey value : Slice) : Status × State :=
  if !io.makeRoom.isOk then (io.makeRoom, s)
  else if !io.addRecord.isOk then (io.addRecord, { s with lastSequence := s.lastSequence + 1 })
  else (.ok, s.write .value userKey value)

/-- The variable `exists` of `DBImpl::Update`. -/
def State.exists (s : State) (userKey : Slice) : Bool :=
  if (memTableGet s.mem userKey s.lastSequence).isSome then true
  else if (s.imm.bind fun imm => memTableGet imm userKey s.lastSequence).isSome then true
  else indexGet s.index userKey ≠ noFile

/-- What `Update` leaves: the status that it returns, the state, and the status of the `Put` if it
has made one. -/
structure UpdateOutcome where
  status : Status
  state : State
  put : Option Status

/-- `DBImpl::Update`. -/
def State.update (s : State) (io : WriteIo) (userKey value : Slice) : UpdateOutcome :=
  if s.exists userKey then
    let written := s.put io userKey value
    ⟨.ok, written.2, some written.1⟩
  else ⟨.ok, s, none⟩

variable {s : State} {userKey : Slice} {e : Entry} {entries : List Entry}

/-! ## The entry that a read finds -/

/-- A part of the database has an entry of a key. -/
def Holds (entries : List Entry) (userKey : Slice) : Prop := ∃ e ∈ entries, e.userKey = userKey

/-- **The entry that a read finds**: the newest visible entry of the key in the memtable, or if that
has none in the immutable memtable, or if that has none either in the file to which the index
leads. -/
inductive State.Finds (s : State) (userKey : Slice) (e : Entry) : Prop
  | mem (h : Shows s.mem userKey s.lastSequence e) : s.Finds userKey e
  | imm (hmem : ¬ Holds s.mem userKey)
      (h : Shows (s.imm.getD []) userKey s.lastSequence e) : s.Finds userKey e
  | file (hmem : ¬ Holds s.mem userKey) (himm : ¬ Holds (s.imm.getD []) userKey) (f : ℕ)
      (table : List Entry) (hindex : s.index (fastAtoi userKey) = some f)
      (htable : s.tables f = some table) (h : Shows table userKey s.lastSequence e) :
      s.Finds userKey e

/-- Every entry is visible at the last sequence number. -/
theorem Part.find_eq_none_iff_not_holds (h : Part s entries) (hs : Wf s) :
    findEntry entries userKey s.lastSequence = none ↔ ¬ Holds entries userKey := by
  rw [h.find_eq_none_iff hs]
  constructor
  · rintro hnone ⟨e, he, hkey⟩
    exact absurd (hs.log_le e (h.logged e he)) (not_le.mpr (hnone e he hkey))
  · intro hno e he hkey
    exact absurd ⟨e, he, hkey⟩ hno

theorem Wf.part_imm (hs : Wf s) : Part s (s.imm.getD []) := by
  cases himm : s.imm with
  | none => exact ⟨List.Pairwise.nil, fun _ he => absurd he List.not_mem_nil⟩
  | some imm => exact hs.imm imm himm

theorem State.Finds.get_eq (h : s.Finds userKey e) (hs : Wf s) :
    s.get none userKey = e.read := by
  change s.get (some s.lastSequence) userKey = e.read
  rw [hs.get_eq userKey le_rfl]
  cases h with
  | mem h => rw [(hs.mem.find_eq_some_iff hs).mpr h]
  | imm hmem h =>
    rw [(hs.mem.find_eq_none_iff_not_holds hs).mpr hmem, (hs.part_imm.find_eq_some_iff hs).mpr h]
  | file hmem himm f table hindex htable h =>
    rw [(hs.mem.find_eq_none_iff_not_holds hs).mpr hmem,
      (hs.part_imm.find_eq_none_iff_not_holds hs).mpr himm]
    dsimp only
    rw [hs.versionGet_of_table le_rfl hindex htable,
      ((hs.tables f table htable).1.find_eq_some_iff hs).mpr h]
    rfl

end McfKv.DBImpl
