import McfKv.Db.Version

/-!
# Version edits and their encoding (`db/version_edit.h`, `db/version_edit.cc`)

A `VersionEdit` is one record of the manifest. `encodeTo` writes it as a sequence
of tagged items and `decodeFrom` reads such a sequence back into an existing
object, after `Clear`.

The proofs treat the record as the list of its items. `encodeTo_eq` says that the
bytes are the encodings of `items e` one after the other, and
`decodeLoop_encodeItems` says that the reader's loop turns encoded items into
applications of those items to the object it fills. What the reader returns for
an edit is then a computation on items, with no bytes left in it.

`Clear` leaves `merge_candidates_` and `dead_key_counter_` alone, and so does
`clear` here.
-/

namespace McfKv

open Coding

/-- `enum Tag`. -/
inductive Tag where
  | comparator | logNumber | nextFileNumber | lastSequence | deletedFile
  | newFile | prevLogNumber | deadCount | mergeFile
deriving DecidableEq, Repr

/-- The number a tag is written as. -/
def Tag.code : Tag → ℕ
  | .comparator => 1
  | .logNumber => 2
  | .nextFileNumber => 3
  | .lastSequence => 4
  | .deletedFile => 5
  | .newFile => 6
  | .prevLogNumber => 7
  | .deadCount => 8
  | .mergeFile => 9

/-- The tag a number stands for; `none` is the `default` label of the switch. -/
def Tag.ofCode : ℕ → Option Tag
  | 1 => some .comparator
  | 2 => some .logNumber
  | 3 => some .nextFileNumber
  | 4 => some .lastSequence
  | 5 => some .deletedFile
  | 6 => some .newFile
  | 7 => some .prevLogNumber
  | 8 => some .deadCount
  | 9 => some .mergeFile
  | _ => none

@[simp] theorem Tag.ofCode_code (tag : Tag) : Tag.ofCode tag.code = some tag := by
  cases tag <;> rfl

theorem Tag.code_lt (tag : Tag) : tag.code < 2 ^ 32 := by
  cases tag <;> decide

/-- `class VersionEdit`. A `has_` flag and its value are one `Option`. -/
structure VersionEdit where
  newFiles : List FileMetaData
  mergeCandidates : List FileMetaData
  deletedFiles : List ℕ
  deadKeyCounter : KeyedMap (Prod.fst : ℕ × ℕ → ℕ)
  comparator : Option Slice
  logNumber : Option ℕ
  prevLogNumber : Option ℕ
  nextFileNumber : Option ℕ
  lastSequence : Option ℕ

namespace VersionEdit

/-- `VersionEdit::VersionEdit`. -/
def new : VersionEdit where
  newFiles := []
  mergeCandidates := []
  deletedFiles := []
  deadKeyCounter := ∅
  comparator := none
  logNumber := none
  prevLogNumber := none
  nextFileNumber := none
  lastSequence := none

/-- `VersionEdit::Clear`. -/
def clear (e : VersionEdit) : VersionEdit :=
  { e with
    comparator := none
    logNumber := none
    prevLogNumber := none
    lastSequence := none
    nextFileNumber := none
    deletedFiles := []
    newFiles := [] }

/-- `VersionEdit::SetLogNumber`. -/
def setLogNumber (e : VersionEdit) (num : ℕ) : VersionEdit := { e with logNumber := some num }

/-- `VersionEdit::SetPrevLogNumber`. -/
def setPrevLogNumber (e : VersionEdit) (num : ℕ) : VersionEdit :=
  { e with prevLogNumber := some num }

/-- `VersionEdit::SetNextFile`. -/
def setNextFile (e : VersionEdit) (num : ℕ) : VersionEdit :=
  { e with nextFileNumber := some num }

/-- `VersionEdit::SetLastSequence`. -/
def setLastSequence (e : VersionEdit) (num : ℕ) : VersionEdit :=
  { e with lastSequence := some num }

/-- `VersionEdit::SetComparatorName`. -/
def setComparatorName (e : VersionEdit) (name : Slice) : VersionEdit :=
  { e with comparator := some name }

/-- The `FileMetaData` that `AddFile`, `AddMergeCandidates` and the reader build:
they leave `allowed_seeks` unset, and nothing reads it before `Builder::Apply`
computes it anew. -/
def fileEntry (f : FileMetaData) : FileMetaData := { f with allowedSeeks := 0 }

/-- `VersionEdit::AddFile`. -/
def addFile (e : VersionEdit) (f : FileMetaData) : VersionEdit :=
  { e with newFiles := e.newFiles ++ [fileEntry f] }

/-- `VersionEdit::AddMergeCandidates`. -/
def addMergeCandidates (e : VersionEdit) (f : FileMetaData) : VersionEdit :=
  { e with mergeCandidates := e.mergeCandidates ++ [fileEntry f] }

/-- `VersionEdit::DeleteFile`. -/
def deleteFile (e : VersionEdit) (file : ℕ) : VersionEdit :=
  { e with deletedFiles := e.deletedFiles ++ [file] }

/-! ## The writer -/

/-- A tag followed by one number. -/
def putTagged (dst : Slice) (tag : Tag) (num : ℕ) : Slice :=
  putVarint64 (putVarint32 dst tag.code) num

/-- The entry `kNewFile` and `kMergeFile` are followed by. -/
def putFile (dst : Slice) (tag : Tag) (f : FileMetaData) : Slice :=
  let dst := putVarint32 dst tag.code
  let dst := putVarint64 dst f.number
  let dst := putVarint64 dst f.fileSize
  let dst := putVarint64 dst f.total
  let dst := putVarint64 dst f.alive
  let dst := putLengthPrefixedSlice dst f.smallest.encode
  putLengthPrefixedSlice dst f.largest.encode

/-- `VersionEdit::EncodeTo`. -/
def encodeTo (e : VersionEdit) (dst : Slice) : Slice :=
  let dst := e.comparator.elim dst fun name =>
    putLengthPrefixedSlice (putVarint32 dst Tag.comparator.code) name
  let dst := e.logNumber.elim dst (putTagged dst .logNumber)
  let dst := e.prevLogNumber.elim dst (putTagged dst .prevLogNumber)
  let dst := e.nextFileNumber.elim dst (putTagged dst .nextFileNumber)
  let dst := e.lastSequence.elim dst (putTagged dst .lastSequence)
  let dst := e.deletedFiles.foldl (fun dst file => putTagged dst .deletedFile file) dst
  let dst := e.newFiles.foldl (fun dst file => putFile dst .newFile file) dst
  let dst := e.deadKeyCounter.entries.foldl
    (fun dst pair => putVarint64 (putTagged dst .deadCount pair.1) pair.2) dst
  e.mergeCandidates.foldl (fun dst file => putFile dst .mergeFile file) dst

/-! ## The reader -/

/-- The six reads of a file entry. -/
def getFile (input : Slice) : Option (FileMetaData × Slice) := do
  let (number, input) ← getVarint64 input
  let (fileSize, input) ← getVarint64 input
  let (total, input) ← getVarint64 input
  let (alive, input) ← getVarint64 input
  let (smallest, input) ← getLengthPrefixedSlice input
  let (largest, input) ← getLengthPrefixedSlice input
  return ({ number, fileSize, total, alive, allowedSeeks := 0
            smallest := InternalKey.decodeFrom smallest
            largest := InternalKey.decodeFrom largest }, input)

/-- One case of the switch: the updated object and the unread input, or the
message of the case. -/
def decodeItem (e : VersionEdit) (tag : ℕ) (input : Slice) :
    Except String (VersionEdit × Slice) :=
  match Tag.ofCode tag with
  | some .comparator =>
    match getLengthPrefixedSlice input with
    | some (str, input) => .ok ({ e with comparator := some str }, input)
    | none => .error "comparator name"
  | some .logNumber =>
    match getVarint64 input with
    | some (num, input) => .ok ({ e with logNumber := some num }, input)
    | none => .error "log number"
  | some .prevLogNumber =>
    match getVarint64 input with
    | some (num, input) => .ok ({ e with prevLogNumber := some num }, input)
    | none => .error "prev log number"
  | some .nextFileNumber =>
    match getVarint64 input with
    | some (num, input) => .ok ({ e with nextFileNumber := some num }, input)
    | none => .error "next file number"
  | some .lastSequence =>
    match getVarint64 input with
    | some (num, input) => .ok ({ e with lastSequence := some num }, input)
    | none => .error "last sequence number"
  | some .deletedFile =>
    match getVarint64 input with
    | some (num, input) => .ok ({ e with deletedFiles := e.deletedFiles ++ [num] }, input)
    | none => .error "deleted file"
  | some .newFile =>
    match getFile input with
    | some (f, input) => .ok ({ e with newFiles := e.newFiles ++ [f] }, input)
    | none => .error "new-file entry"
  | some .deadCount =>
    match getVarint64 input with
    | some (first, rest) =>
      match getVarint64 rest with
      | some (second, input) =>
        .ok ({ e with deadKeyCounter := e.deadKeyCounter.insert (first, second) }, input)
      | none => .error "dead-count"
    | none => .error "dead-count"
  | some .mergeFile =>
    match getFile input with
    | some (f, input) => .ok ({ e with mergeCandidates := e.mergeCandidates ++ [f] }, input)
    | none => .error "new-file entry"
  | none => .error "unknown tag"

/-- The loop of `DecodeFrom`; every turn reads at least the byte of a tag, so the
length of the input bounds the turns. The message is `none` where the source's
`msg` is still null. -/
def decodeLoop : ℕ → VersionEdit → Slice → Option String × VersionEdit
  | 0, e, input => (if input = [] then none else some "invalid tag", e)
  | fuel + 1, e, input =>
    match getVarint32 input with
    | none => (if input = [] then none else some "invalid tag", e)
    | some (tag, rest) =>
      match decodeItem e tag rest with
      | .error msg => (some msg, e)
      | .ok (e, rest) => decodeLoop fuel e rest

/-- `VersionEdit::DecodeFrom` on an object `e`. -/
def decodeFrom (e : VersionEdit) (src : Slice) : Status × VersionEdit :=
  match decodeLoop (src.length + 1) e.clear src with
  | (none, e) => (.ok, e)
  | (some msg, e) => (.corruption "ZeroVersionEdit" msg, e)

/-- The dead keys that the edit records against a file, zero when it has no entry. -/
def dead (e : VersionEdit) (n : ℕ) : ℕ := ((e.deadKeyCounter.find? n).map Prod.snd).getD 0

/-! ## The record as a list of items -/

/-- One tagged item of a record. -/
inductive Item where
  | comparator (name : Slice)
  | logNumber (num : ℕ)
  | prevLogNumber (num : ℕ)
  | nextFileNumber (num : ℕ)
  | lastSequence (num : ℕ)
  | deletedFile (file : ℕ)
  | newFile (f : FileMetaData)
  | deadCount (pair : ℕ × ℕ)
  | mergeFile (f : FileMetaData)

namespace Item

/-- The tag an item is written under. -/
def tag : Item → Tag
  | comparator _ => .comparator
  | logNumber _ => .logNumber
  | prevLogNumber _ => .prevLogNumber
  | nextFileNumber _ => .nextFileNumber
  | lastSequence _ => .lastSequence
  | deletedFile _ => .deletedFile
  | newFile _ => .newFile
  | deadCount _ => .deadCount
  | mergeFile _ => .mergeFile

/-- The bytes of a file entry after its tag. -/
def filePayload (f : FileMetaData) : Slice :=
  encodeVarint64 f.number ++ (encodeVarint64 f.fileSize ++ (encodeVarint64 f.total ++
    (encodeVarint64 f.alive ++ (putLengthPrefixedSlice [] f.smallest.encode ++
      putLengthPrefixedSlice [] f.largest.encode))))

/-- The bytes of an item after its tag. -/
def payload : Item → Slice
  | comparator name => putLengthPrefixedSlice [] name
  | logNumber num => encodeVarint64 num
  | prevLogNumber num => encodeVarint64 num
  | nextFileNumber num => encodeVarint64 num
  | lastSequence num => encodeVarint64 num
  | deletedFile file => encodeVarint64 file
  | newFile f => filePayload f
  | deadCount pair => encodeVarint64 pair.1 ++ encodeVarint64 pair.2
  | mergeFile f => filePayload f

/-- The bytes of an item. -/
def bytes (item : Item) : Slice := encodeVarint32 item.tag.code ++ item.payload

/-- What reading an item does to the object that is being filled. -/
def applyTo (e : VersionEdit) : Item → VersionEdit
  | comparator name => { e with comparator := some name }
  | logNumber num => { e with logNumber := some num }
  | prevLogNumber num => { e with prevLogNumber := some num }
  | nextFileNumber num => { e with nextFileNumber := some num }
  | lastSequence num => { e with lastSequence := some num }
  | deletedFile file => { e with deletedFiles := e.deletedFiles ++ [file] }
  | newFile f => { e with newFiles := e.newFiles ++ [fileEntry f] }
  | deadCount pair => { e with deadKeyCounter := e.deadKeyCounter.insert pair }
  | mergeFile f => { e with mergeCandidates := e.mergeCandidates ++ [fileEntry f] }

end Item

/-- A file entry whose numbers have 64 bits and whose keys have a 32-bit length. -/
structure FileFits (f : FileMetaData) : Prop where
  number : f.number < 2 ^ 64
  fileSize : f.fileSize < 2 ^ 64
  total : f.total < 2 ^ 64
  alive : f.alive < 2 ^ 64
  smallest : f.smallest.rep.length < 2 ^ 32
  largest : f.largest.rep.length < 2 ^ 32

/-- An item whose numbers have 64 bits and whose slices have a 32-bit length. -/
def Item.Fits : Item → Prop
  | .comparator name => name.length < 2 ^ 32
  | .logNumber num => num < 2 ^ 64
  | .prevLogNumber num => num < 2 ^ 64
  | .nextFileNumber num => num < 2 ^ 64
  | .lastSequence num => num < 2 ^ 64
  | .deletedFile file => file < 2 ^ 64
  | .newFile f => FileFits f
  | .deadCount pair => pair.1 < 2 ^ 64 ∧ pair.2 < 2 ^ 64
  | .mergeFile f => FileFits f

/-- The items of a record, in the order `EncodeTo` writes them. -/
def items (e : VersionEdit) : List Item :=
  (e.comparator.map Item.comparator).toList ++ (e.logNumber.map Item.logNumber).toList ++
    (e.prevLogNumber.map Item.prevLogNumber).toList ++
    (e.nextFileNumber.map Item.nextFileNumber).toList ++
    (e.lastSequence.map Item.lastSequence).toList ++
    e.deletedFiles.map Item.deletedFile ++ e.newFiles.map Item.newFile ++
    e.deadKeyCounter.entries.map Item.deadCount ++ e.mergeCandidates.map Item.mergeFile

theorem putTagged_eq (dst : Slice) (tag : Tag) (num : ℕ) :
    putTagged dst tag num = dst ++ (encodeVarint32 tag.code ++ encodeVarint64 num) := by
  simp [putTagged, putVarint64, putVarint32]

theorem putFile_eq (dst : Slice) (tag : Tag) (f : FileMetaData) :
    putFile dst tag f = dst ++ (encodeVarint32 tag.code ++ Item.filePayload f) := by
  simp [putFile, Item.filePayload, putLengthPrefixedSlice, putVarint64, putVarint32]

theorem foldl_append_eq {β : Type*} (g : β → Slice) (l : List β) (dst : Slice) :
    l.foldl (fun dst b => dst ++ g b) dst = dst ++ l.flatMap g := by
  induction l generalizing dst with
  | nil => simp
  | cons b l ih => simp [ih]

/-- **The bytes of a record are the bytes of its items.** -/
theorem encodeTo_eq (e : VersionEdit) (dst : Slice) :
    e.encodeTo dst = dst ++ e.items.flatMap Item.bytes := by
  have hcomparator : ∀ d : Slice, (e.comparator.elim d fun name =>
        putLengthPrefixedSlice (putVarint32 d Tag.comparator.code) name) =
      d ++ (e.comparator.map Item.comparator).toList.flatMap Item.bytes := by
    intro d
    cases e.comparator with
    | none => simp
    | some name =>
      simp [Item.bytes, Item.tag, Item.payload, putLengthPrefixedSlice, putVarint32]
  have hnumber : ∀ (d : Slice) (num : Option ℕ) (tag : Tag) (item : ℕ → Item),
      (∀ n, (item n).bytes = encodeVarint32 tag.code ++ encodeVarint64 n) →
      num.elim d (putTagged d tag) = d ++ (num.map item).toList.flatMap Item.bytes := by
    intro d num tag item hitem
    cases num with
    | none => simp
    | some n => simp [putTagged_eq, hitem]
  unfold encodeTo items
  simp only [hcomparator]
  rw [hnumber _ e.logNumber .logNumber Item.logNumber fun _ => rfl,
    hnumber _ e.prevLogNumber .prevLogNumber Item.prevLogNumber fun _ => rfl,
    hnumber _ e.nextFileNumber .nextFileNumber Item.nextFileNumber fun _ => rfl,
    hnumber _ e.lastSequence .lastSequence Item.lastSequence fun _ => rfl]
  simp only [putTagged_eq, putFile_eq, putVarint64, List.append_assoc, foldl_append_eq,
    List.flatMap_append, List.flatMap_map]
  rfl

/-! ## Reading the items back -/

theorem getFile_filePayload {f : FileMetaData} (hf : FileFits f) (rest : Slice) :
    getFile (Item.filePayload f ++ rest) = some (fileEntry f, rest) := by
  simp only [Item.filePayload, List.append_assoc, getFile,
    getVarint64_encodeVarint64 hf.number, getVarint64_encodeVarint64 hf.fileSize,
    getVarint64_encodeVarint64 hf.total, getVarint64_encodeVarint64 hf.alive,
    getLengthPrefixedSlice_put (show f.smallest.encode.length < 2 ^ 32 from hf.smallest),
    getLengthPrefixedSlice_put (show f.largest.encode.length < 2 ^ 32 from hf.largest),
    Option.bind_eq_bind, Option.bind_some]
  rfl

theorem decodeItem_payload (e : VersionEdit) {item : Item} (hfits : item.Fits) (rest : Slice) :
    decodeItem e item.tag.code (item.payload ++ rest) = .ok (item.applyTo e, rest) := by
  unfold decodeItem
  rw [Tag.ofCode_code]
  cases item with
  | comparator name => simp [Item.tag, Item.payload, getLengthPrefixedSlice_put hfits, Item.applyTo]
  | logNumber num => simp [Item.tag, Item.payload, getVarint64_encodeVarint64 hfits, Item.applyTo]
  | prevLogNumber num =>
    simp [Item.tag, Item.payload, getVarint64_encodeVarint64 hfits, Item.applyTo]
  | nextFileNumber num =>
    simp [Item.tag, Item.payload, getVarint64_encodeVarint64 hfits, Item.applyTo]
  | lastSequence num =>
    simp [Item.tag, Item.payload, getVarint64_encodeVarint64 hfits, Item.applyTo]
  | deletedFile file =>
    simp [Item.tag, Item.payload, getVarint64_encodeVarint64 hfits, Item.applyTo]
  | newFile f => simp [Item.tag, Item.payload, getFile_filePayload hfits, Item.applyTo]
  | deadCount pair =>
    simp [Item.tag, Item.payload, getVarint64_encodeVarint64 hfits.1,
      getVarint64_encodeVarint64 hfits.2, Item.applyTo]
  | mergeFile f => simp [Item.tag, Item.payload, getFile_filePayload hfits, Item.applyTo]

/-- **The reader's loop applies encoded items one by one.** -/
theorem decodeLoop_encodeItems (l : List Item) (hfits : ∀ item ∈ l, item.Fits) :
    ∀ (fuel : ℕ) (e : VersionEdit), l.length < fuel →
      decodeLoop fuel e (l.flatMap Item.bytes) = (none, l.foldl (fun e i => i.applyTo e) e) := by
  induction l with
  | nil =>
    intro fuel e hfuel
    obtain ⟨fuel, rfl⟩ : ∃ n, fuel = n + 1 := ⟨fuel - 1, by simp at hfuel; omega⟩
    rfl
  | cons item l ih =>
    intro fuel e hfuel
    obtain ⟨fuel, rfl⟩ : ∃ n, fuel = n + 1 := ⟨fuel - 1, by simp at hfuel; omega⟩
    have hitem := hfits item List.mem_cons_self
    have hrest := ih (fun i hi => hfits i (List.mem_cons_of_mem _ hi)) fuel
      (item.applyTo e) (by simpa using hfuel)
    rw [List.flatMap_cons, Item.bytes, List.append_assoc, decodeLoop,
      getVarint32_encodeVarint32 item.tag.code_lt]
    simp only [decodeItem_payload e hitem]
    exact hrest

theorem Item.bytes_ne_nil (item : Item) : item.bytes ≠ [] := by
  have htag : ∀ t : Tag, encodeVarint32 t.code ≠ [] := by
    intro t
    cases t <;> decide
  simp [Item.bytes, htag]

theorem length_le_flatMap_bytes (l : List Item) : l.length ≤ (l.flatMap Item.bytes).length := by
  induction l with
  | nil => simp
  | cons item l ih =>
    have hpos := List.length_pos_iff.mpr item.bytes_ne_nil
    simp only [List.flatMap_cons, List.length_append, List.length_cons]
    omega

/-- **What `DecodeFrom` returns for an encoded record.** -/
theorem decodeFrom_encodeTo (target e : VersionEdit) (hfits : ∀ item ∈ e.items, item.Fits) :
    target.decodeFrom (e.encodeTo []) =
      (.ok, e.items.foldl (fun e i => i.applyTo e) target.clear) := by
  unfold decodeFrom
  rw [encodeTo_eq, List.nil_append,
    decodeLoop_encodeItems e.items hfits _ _ (Nat.lt_succ_of_le (length_le_flatMap_bytes _))]

section ApplyItems

variable (e : VersionEdit)

theorem foldl_applyTo_comparator (x : Option Slice) :
    (x.map Item.comparator).toList.foldl (fun e i => i.applyTo e) e =
      { e with comparator := x.or e.comparator } := by
  cases x <;> rfl

theorem foldl_applyTo_logNumber (x : Option ℕ) :
    (x.map Item.logNumber).toList.foldl (fun e i => i.applyTo e) e =
      { e with logNumber := x.or e.logNumber } := by
  cases x <;> rfl

theorem foldl_applyTo_prevLogNumber (x : Option ℕ) :
    (x.map Item.prevLogNumber).toList.foldl (fun e i => i.applyTo e) e =
      { e with prevLogNumber := x.or e.prevLogNumber } := by
  cases x <;> rfl

theorem foldl_applyTo_nextFileNumber (x : Option ℕ) :
    (x.map Item.nextFileNumber).toList.foldl (fun e i => i.applyTo e) e =
      { e with nextFileNumber := x.or e.nextFileNumber } := by
  cases x <;> rfl

theorem foldl_applyTo_lastSequence (x : Option ℕ) :
    (x.map Item.lastSequence).toList.foldl (fun e i => i.applyTo e) e =
      { e with lastSequence := x.or e.lastSequence } := by
  cases x <;> rfl

theorem foldl_applyTo_deletedFile (l : List ℕ) :
    (l.map Item.deletedFile).foldl (fun e i => i.applyTo e) e =
      { e with deletedFiles := e.deletedFiles ++ l } := by
  induction l generalizing e with
  | nil => simp
  | cons file l ih =>
    rw [List.map_cons, List.foldl_cons, ih]
    simp [Item.applyTo]

theorem foldl_applyTo_newFile (l : List FileMetaData) :
    (l.map Item.newFile).foldl (fun e i => i.applyTo e) e =
      { e with newFiles := e.newFiles ++ l.map fileEntry } := by
  induction l generalizing e with
  | nil => simp
  | cons f l ih =>
    rw [List.map_cons, List.foldl_cons, ih]
    simp [Item.applyTo]

theorem foldl_applyTo_deadCount (l : List (ℕ × ℕ)) :
    (l.map Item.deadCount).foldl (fun e i => i.applyTo e) e =
      { e with deadKeyCounter := e.deadKeyCounter.insertAll l } := by
  induction l generalizing e with
  | nil => simp
  | cons pair l ih =>
    rw [List.map_cons, List.foldl_cons, ih]
    simp [Item.applyTo]

theorem foldl_applyTo_mergeFile (l : List FileMetaData) :
    (l.map Item.mergeFile).foldl (fun e i => i.applyTo e) e =
      { e with mergeCandidates := e.mergeCandidates ++ l.map fileEntry } := by
  induction l generalizing e with
  | nil => simp
  | cons f l ih =>
    rw [List.map_cons, List.foldl_cons, ih]
    simp [Item.applyTo]

end ApplyItems

/-- **What the items of an edit make of a cleared object.** -/
theorem foldl_applyTo_items (target e : VersionEdit) :
    e.items.foldl (fun e i => i.applyTo e) target.clear = { e with
        newFiles := e.newFiles.map fileEntry
        mergeCandidates := target.mergeCandidates ++ e.mergeCandidates.map fileEntry
        deadKeyCounter := target.deadKeyCounter.insertAll e.deadKeyCounter.entries } := by
  unfold items
  simp only [List.foldl_append, foldl_applyTo_comparator, foldl_applyTo_logNumber,
    foldl_applyTo_prevLogNumber, foldl_applyTo_nextFileNumber, foldl_applyTo_lastSequence,
    foldl_applyTo_deletedFile, foldl_applyTo_newFile, foldl_applyTo_deadCount,
    foldl_applyTo_mergeFile, clear, Option.or_none, List.nil_append]

/-! ## The round trip -/

/-- The edits record the same: the same fields, the same files in the same order, and the
same count for every file. `allowed_seeks` is not part of a record. -/
structure SameRecord (d e : VersionEdit) : Prop where
  comparator : d.comparator = e.comparator
  logNumber : d.logNumber = e.logNumber
  prevLogNumber : d.prevLogNumber = e.prevLogNumber
  nextFileNumber : d.nextFileNumber = e.nextFileNumber
  lastSequence : d.lastSequence = e.lastSequence
  deletedFiles : d.deletedFiles = e.deletedFiles
  newFiles : d.newFiles.map fileEntry = e.newFiles.map fileEntry
  mergeCandidates : d.mergeCandidates.map fileEntry = e.mergeCandidates.map fileEntry
  deadKeyCounter : ∀ n, d.deadKeyCounter.find? n = e.deadKeyCounter.find? n

theorem map_fileEntry_idem (l : List FileMetaData) :
    (l.map fileEntry).map fileEntry = l.map fileEntry := by
  rw [List.map_map]
  rfl

/-- **The encoding of an edit reads back as the edit**, in whatever order the enumeration of
`dead_key_counter_` lists its pairs. -/
theorem decodeFrom_encodeTo_new (e : VersionEdit) (hfits : ∀ item ∈ e.items, item.Fits) :
    ∃ d, new.decodeFrom (e.encodeTo []) = (.ok, d) ∧ SameRecord d e := by
  refine ⟨_, (decodeFrom_encodeTo new e hfits).trans (congrArg _ (foldl_applyTo_items new e)), ?_⟩
  refine ⟨rfl, rfl, rfl, rfl, rfl, rfl, map_fileEntry_idem _, ?_, fun n => ?_⟩
  · change ([] ++ e.mergeCandidates.map fileEntry).map fileEntry = _
    rw [List.nil_append, map_fileEntry_idem]
  · change (new.deadKeyCounter.insertAll e.deadKeyCounter.entries).find? n = _
    rw [KeyedMap.find?_insertAll]
    rfl

/-- A file entry with the given smallest key. -/
def entryFrom (smallest : Slice) : FileMetaData where
  number := 1
  allowedSeeks := 0
  fileSize := 2
  total := 3
  alive := 4
  smallest := ⟨smallest⟩
  largest := ⟨[9]⟩

/-- An edit with a field of every kind. -/
def everyField : VersionEdit where
  newFiles := [entryFrom [8]]
  mergeCandidates := [entryFrom [7]]
  deletedFiles := [300, 2 ^ 64 - 1]
  deadKeyCounter := (∅ : KeyedMap (Prod.fst : ℕ × ℕ → ℕ)).insertAll [(5, 1), (4, 2 ^ 40)]
  comparator := some []
  logNumber := some 127
  prevLogNumber := none
  nextFileNumber := some 128
  lastSequence := some (2 ^ 56 - 1)

theorem decodeFrom_encodeTo_everyField :
    ∃ d, new.decodeFrom (everyField.encodeTo []) = (.ok, d) ∧ SameRecord d everyField := by
  refine decodeFrom_encodeTo_new everyField fun item hitem => ?_
  have hentry : ∀ b, FileFits (entryFrom [b]) := fun b => by
    constructor <;> simp [entryFrom]
  have hitems : everyField.items = [.comparator [], .logNumber 127, .nextFileNumber 128,
      .lastSequence (2 ^ 56 - 1), .deletedFile 300, .deletedFile (2 ^ 64 - 1),
      .newFile (entryFrom [8]), .deadCount (4, 2 ^ 40), .deadCount (5, 1),
      .mergeFile (entryFrom [7])] := rfl
  rw [hitems] at hitem
  simp only [List.mem_cons, List.not_mem_nil, or_false] at hitem
  rcases hitem with rfl | rfl | rfl | rfl | rfl | rfl | rfl | rfl | rfl | rfl
  all_goals simp [Item.Fits, hentry]

/-- **A key of `2^32` bytes does not read back.** Its length is written as `0`, and the
reader takes the bytes of the key for a length and a tag. -/
theorem decodeFrom_hugeKey :
    new.decodeFrom ((new.addFile (entryFrom (List.replicate (2 ^ 32) 0))).encodeTo []) =
      (.corruption "ZeroVersionEdit" "unknown tag", new.addFile ⟨1, 0, 2, 3, 4, ⟨[]⟩, ⟨[]⟩⟩) := by
  obtain ⟨rest, hkey⟩ : ∃ rest : Slice, List.replicate (2 ^ 32) 0 = 0 :: 0 :: rest := by
    have hsum : 2 ^ 32 - 2 + 1 + 1 = 2 ^ 32 := by norm_num
    refine ⟨List.replicate (2 ^ 32 - 2) 0, ?_⟩
    rw [← List.replicate_succ, ← List.replicate_succ, hsum]
  have hlen : (0 :: 0 :: rest : Slice).length = 2 ^ 32 := by
    rw [← hkey, List.length_replicate]
  have hbytes : (new.addFile (entryFrom (0 :: 0 :: rest))).encodeTo [] =
      6 :: 1 :: 2 :: 3 :: 4 :: 0 :: 0 :: 0 :: (rest ++ [1, 9]) := by
    have hzero : putLengthPrefixedSlice [] (0 :: 0 :: rest) = 0 :: 0 :: 0 :: rest := by
      rw [putLengthPrefixedSlice, hlen]
      rfl
    rw [encodeTo_eq]
    change [] ++ (encodeVarint32 6 ++ (encodeVarint64 1 ++ (encodeVarint64 2 ++ (encodeVarint64 3 ++
      (encodeVarint64 4 ++ (putLengthPrefixedSlice [] (0 :: 0 :: rest) ++
        putLengthPrefixedSlice [] [9])))))) ++ [] = _
    rw [hzero]
    simp only [List.nil_append, List.append_nil]
    rfl
  rw [hkey, hbytes]
  rfl

/-! ## Decoding into a used object -/

theorem fileEntry_of_getFile {input rest : Slice} {f : FileMetaData}
    (h : getFile input = some (f, rest)) : fileEntry f = f := by
  simp only [getFile, Option.bind_eq_bind, Option.bind_eq_some_iff] at h
  obtain ⟨_, -, _, -, _, -, _, -, _, -, _, -, h⟩ := h
  cases h
  rfl

/-- **A case of the switch reads one item or reports a message**, whatever object it
fills. -/
theorem decodeItem_eq (tag : ℕ) (input : Slice) :
    (∃ msg, ∀ e, decodeItem e tag input = .error msg) ∨
      ∃ (item : Item) (rest : Slice), ∀ e, decodeItem e tag input = .ok (item.applyTo e, rest) := by
  unfold decodeItem
  rcases Tag.ofCode tag with _ | tag
  · exact .inl ⟨_, fun _ => rfl⟩
  cases tag with
  | comparator =>
    rcases getLengthPrefixedSlice input with _ | ⟨str, rest⟩
    · exact .inl ⟨_, fun _ => rfl⟩
    · exact .inr ⟨.comparator str, rest, fun _ => rfl⟩
  | newFile =>
    rcases hfile : getFile input with _ | ⟨f, rest⟩
    · exact .inl ⟨_, fun _ => rfl⟩
    · refine .inr ⟨.newFile f, rest, fun e => ?_⟩
      simp only [Item.applyTo, fileEntry_of_getFile hfile]
  | mergeFile =>
    rcases hfile : getFile input with _ | ⟨f, rest⟩
    · exact .inl ⟨_, fun _ => rfl⟩
    · refine .inr ⟨.mergeFile f, rest, fun e => ?_⟩
      simp only [Item.applyTo, fileEntry_of_getFile hfile]
  | deadCount =>
    rcases getVarint64 input with _ | ⟨first, rest⟩
    · exact .inl ⟨_, fun _ => rfl⟩
    rcases hsecond : getVarint64 rest with _ | ⟨second, rest⟩
    · exact .inl ⟨"dead-count", fun _ => by simp only [hsecond]⟩
    · exact .inr ⟨.deadCount (first, second), rest, fun _ => by simp only [hsecond, Item.applyTo]⟩
  | logNumber =>
    rcases getVarint64 input with _ | ⟨num, rest⟩
    · exact .inl ⟨_, fun _ => rfl⟩
    · exact .inr ⟨.logNumber num, rest, fun _ => rfl⟩
  | prevLogNumber =>
    rcases getVarint64 input with _ | ⟨num, rest⟩
    · exact .inl ⟨_, fun _ => rfl⟩
    · exact .inr ⟨.prevLogNumber num, rest, fun _ => rfl⟩
  | nextFileNumber =>
    rcases getVarint64 input with _ | ⟨num, rest⟩
    · exact .inl ⟨_, fun _ => rfl⟩
    · exact .inr ⟨.nextFileNumber num, rest, fun _ => rfl⟩
  | lastSequence =>
    rcases getVarint64 input with _ | ⟨num, rest⟩
    · exact .inl ⟨_, fun _ => rfl⟩
    · exact .inr ⟨.lastSequence num, rest, fun _ => rfl⟩
  | deletedFile =>
    rcases getVarint64 input with _ | ⟨num, rest⟩
    · exact .inl ⟨_, fun _ => rfl⟩
    · exact .inr ⟨.deletedFile num, rest, fun _ => rfl⟩

/-- **The loop's message and the items it applies depend only on the input.** -/
theorem decodeLoop_eq (fuel : ℕ) (input : Slice) : ∃ (msg : Option String) (l : List Item),
    ∀ e, decodeLoop fuel e input = (msg, l.foldl (fun e i => i.applyTo e) e) := by
  induction fuel generalizing input with
  | zero => exact ⟨_, [], fun _ => rfl⟩
  | succ fuel ih =>
    rcases htag : getVarint32 input with _ | ⟨tag, rest⟩
    · exact ⟨_, [], fun e => by rw [decodeLoop, htag]; rfl⟩
    rcases decodeItem_eq tag rest with ⟨msg, herror⟩ | ⟨item, rest', hok⟩
    · exact ⟨some msg, [], fun e => by rw [decodeLoop, htag]; simp only [herror]; rfl⟩
    · obtain ⟨msg, l, hloop⟩ := ih rest'
      refine ⟨msg, item :: l, fun e => ?_⟩
      rw [decodeLoop, htag]
      simp only [hok, hloop, List.foldl_cons]

theorem decodeFrom_eq (s : Slice) : ∃ (status : Status) (l : List Item),
    ∀ e : VersionEdit, e.decodeFrom s = (status, l.foldl (fun e i => i.applyTo e) e.clear) := by
  obtain ⟨msg, l, hloop⟩ := decodeLoop_eq (s.length + 1) s
  cases msg with
  | none => exact ⟨.ok, l, fun e => by rw [decodeFrom, hloop]⟩
  | some msg => exact ⟨.corruption "ZeroVersionEdit" msg, l, fun e => by rw [decodeFrom, hloop]⟩

theorem SameRecord.applyTo {d e : VersionEdit} (h : SameRecord d e) (item : Item) :
    SameRecord (item.applyTo d) (item.applyTo e) := by
  cases item with
  | comparator name => exact { h with comparator := rfl }
  | logNumber num => exact { h with logNumber := rfl }
  | prevLogNumber num => exact { h with prevLogNumber := rfl }
  | nextFileNumber num => exact { h with nextFileNumber := rfl }
  | lastSequence num => exact { h with lastSequence := rfl }
  | deletedFile file => exact { h with deletedFiles := congrArg (· ++ [file]) h.deletedFiles }
  | newFile f =>
    refine { h with newFiles := ?_ }
    simp only [Item.applyTo, List.map_append, h.newFiles]
  | deadCount pair =>
    refine { h with deadKeyCounter := fun n => ?_ }
    simp only [Item.applyTo, KeyedMap.find?_insert, h.deadKeyCounter]
  | mergeFile f =>
    refine { h with mergeCandidates := ?_ }
    simp only [Item.applyTo, List.map_append, h.mergeCandidates]

theorem SameRecord.foldl_applyTo {d e : VersionEdit} (h : SameRecord d e) (l : List Item) :
    SameRecord (l.foldl (fun e i => i.applyTo e) d) (l.foldl (fun e i => i.applyTo e) e) := by
  induction l generalizing d e with
  | nil => exact h
  | cons item l ih => exact ih (h.applyTo item)

/-- The two containers that `Clear` keeps decide whether cleared objects are equal. -/
theorem sameRecord_clear_iff (d e : VersionEdit) : SameRecord d.clear e.clear ↔
    d.mergeCandidates.map fileEntry = e.mergeCandidates.map fileEntry ∧
      ∀ n, d.deadKeyCounter.find? n = e.deadKeyCounter.find? n :=
  ⟨fun h => ⟨h.mergeCandidates, h.deadKeyCounter⟩,
    fun h => ⟨rfl, rfl, rfl, rfl, rfl, rfl, rfl, h.1, h.2⟩⟩

/-- **`DecodeFrom` depends on the object only through what `Clear` forgets**: two objects
decode every input alike exactly when their merge candidates and their dead key counters are
equal before the call. -/
theorem decodeFrom_sameRecord_iff (d e : VersionEdit) :
    (∀ s, (d.decodeFrom s).1 = (e.decodeFrom s).1 ∧
        ((d.decodeFrom s).1 = .ok → SameRecord (d.decodeFrom s).2 (e.decodeFrom s).2)) ↔
      d.mergeCandidates.map fileEntry = e.mergeCandidates.map fileEntry ∧
        ∀ n, d.deadKeyCounter.find? n = e.deadKeyCounter.find? n := by
  rw [← sameRecord_clear_iff]
  constructor
  · -- the empty record only clears
    intro h
    exact (h []).2 rfl
  · intro h s
    obtain ⟨status, l, hdecode⟩ := decodeFrom_eq s
    rw [hdecode, hdecode]
    exact ⟨rfl, fun _ => h.foldl_applyTo l⟩

/-- The merge candidate of an earlier record shows up in the decode of an empty one. -/
theorem decodeFrom_leaks_mergeCandidate :
    let used := (new.decodeFrom ((new.addMergeCandidates (entryFrom [7])).encodeTo [])).2
    (used.decodeFrom []).1 = .ok ∧ (new.decodeFrom []).1 = .ok ∧
      (used.decodeFrom []).2.mergeCandidates = [entryFrom [7]] ∧
      ¬ SameRecord (used.decodeFrom []).2 (new.decodeFrom []).2 := by
  refine ⟨rfl, rfl, rfl, fun h => ?_⟩
  exact List.cons_ne_nil _ _ h.mergeCandidates

end VersionEdit

end McfKv
