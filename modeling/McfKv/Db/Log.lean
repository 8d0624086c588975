import McfKv.Util.Crc32c

/-!
# The log format (`db/log_format.h`, `db/log_writer.cc`, `db/log_reader.cc`)

A log is a sequence of blocks of 32 KiB. `AddRecord` cuts a record into fragments so that
no fragment crosses the end of a block, and writes each as a physical record: a header of
seven bytes (masked checksum, length, type) and the payload. Fewer than seven bytes at the
end of a block are filled with zeros.

`Reader` reads a file block by block and puts the fragments together again. The end of the
file may cut a physical record anywhere; the reader takes this as the end of the log.

The checksum is a parameter. Offsets are `uint64_t` and wrap around, and the reports of the
reader are the calls of `reporter_->Corruption`.
-/

namespace McfKv.Log

/-- `enum RecordType`. -/
inductive RecordType where
  | zero
  | full
  | first
  | middle
  | last
deriving DecidableEq, Repr

/-- The number of a record type. -/
def RecordType.code : RecordType → ℕ
  | .zero => 0
  | .full => 1
  | .first => 2
  | .middle => 3
  | .last => 4

/-- `kEof`. -/
def eofType : ℕ := 5

/-- `kBadRecord`. -/
def badRecord : ℕ := 6

/-- `kBlockSize`. -/
def blockSize : ℕ := 32768

/-- `kHeaderSize`. -/
def headerSize : ℕ := 7

section Format

-- `crc32c::Extend`
variable (extend : UInt32 → Slice → UInt32)

/-! ## The writer -/

/-- `class Writer`: what has been appended to the file, and `block_offset_`. -/
structure Writer where
  dest : Slice
  blockOffset : ℕ

/-- `Writer(dest)` on an empty file. -/
def Writer.new : Writer := ⟨[], 0⟩

/-- `Writer(dest, dest_length)` on a file with contents. -/
def Writer.newAt (dest : Slice) (destLength : ℕ) : Writer := ⟨dest, destLength % blockSize⟩

/-- `type_crc_[t]`, from `InitTypeCrc`. -/
def typeCrc (t : RecordType) : UInt32 := extend 0 [UInt8.ofNat t.code]

/-- The header that `EmitPhysicalRecord` formats. -/
def header (t : RecordType) (payload : Slice) : Slice :=
  Coding.encodeFixed32 (Crc32c.mask (extend (typeCrc extend t) payload)).toNat ++
    [UInt8.ofNat (payload.length &&& 0xff), UInt8.ofNat (payload.length >>> 8),
      UInt8.ofNat t.code]

/-- `EmitPhysicalRecord`. -/
def Writer.emitPhysicalRecord (w : Writer) (t : RecordType) (payload : Slice) : Writer where
  dest := w.dest ++ header extend t payload ++ payload
  blockOffset := w.blockOffset + headerSize + payload.length

/-- The switch to a new block at the start of the loop of `AddRecord`. -/
def Writer.switchBlock (w : Writer) : Writer :=
  let leftover := blockSize - w.blockOffset
  if leftover < headerSize then ⟨w.dest ++ List.replicate leftover 0, 0⟩ else w

/-- The type of a fragment. -/
def fragmentType (isBegin isEnd : Bool) : RecordType :=
  if isBegin && isEnd then .full
  else if isBegin then .first
  else if isEnd then .last
  else .middle

/-- The loop of `AddRecord` with the bytes that are left. -/
def Writer.addRecordLoop : ℕ → Writer → Bool → Slice → Writer
  | 0, w, _, _ => w
  | fuel + 1, w, isBegin, left =>
    let w := w.switchBlock
    let avail := blockSize - w.blockOffset - headerSize
    let fragment := left.take avail
    let isEnd := left.length == fragment.length
    let w := w.emitPhysicalRecord extend (fragmentType isBegin isEnd) fragment
    if isEnd then w else addRecordLoop fuel w false (left.drop avail)

/-- `AddRecord`. Only the first fragment can be empty, so the loop runs at most once for each
byte and once more. -/
def Writer.addRecord (w : Writer) (record : Slice) : Writer :=
  w.addRecordLoop extend (record.length + 2) true record

/-- Several calls of `AddRecord`. -/
def Writer.addRecords (w : Writer) (records : List Slice) : Writer :=
  records.foldl (Writer.addRecord extend) w

/-! ## The reader -/

/-- A `SequentialFile`: the bytes not yet read, and the error that calls return, if any. -/
structure SequentialFile where
  contents : Slice
  error : Option Status

/-- `class Reader`, and what it has reported. -/
structure Reader where
  file : SequentialFile
  checksum : Bool
  buffer : Slice
  eof : Bool
  lastRecordOffset : ℕ
  endOfBufferOffset : ℕ
  initialOffset : ℕ
  resyncing : Bool
  reports : List (ℕ × Status)

namespace Reader

/-- `Reader::Reader`. -/
def new (file : SequentialFile) (checksum : Bool) (initialOffset : ℕ) : Reader where
  file := file
  checksum := checksum
  buffer := []
  eof := false
  lastRecordOffset := 0
  endOfBufferOffset := 0
  initialOffset := initialOffset
  resyncing := 0 < initialOffset
  reports := []

/-- The difference of two `uint64_t`. -/
def sub64 (a b : ℕ) : ℕ := (a + (2 ^ 64 - b % 2 ^ 64)) % 2 ^ 64

/-- `ReportDrop`. -/
def reportDrop (r : Reader) (bytes : ℕ) (reason : Status) : Reader :=
  if r.initialOffset ≤ sub64 (sub64 r.endOfBufferOffset r.buffer.length) bytes then
    { r with reports := r.reports ++ [(bytes, reason)] }
  else r

/-- `ReportCorruption`. -/
def reportCorruption (r : Reader) (bytes : ℕ) (reason : String) : Reader :=
  r.reportDrop bytes (.corruption reason "")

/-- `SkipToInitialBlock`, with its result. -/
def skipToInitialBlock (r : Reader) : Bool × Reader :=
  let offsetInBlock := r.initialOffset % blockSize
  let start := r.initialOffset - offsetInBlock
  let start := if blockSize - 6 < offsetInBlock then start + blockSize else start
  let r := { r with endOfBufferOffset := start }
  if 0 < start then
    match r.file.error with
    | some status => (false, r.reportDrop start status)
    | none => (true, { r with file := ⟨r.file.contents.drop start, none⟩ })
  else (true, r)

/-- A `char` that becomes an `unsigned int`. -/
def charToUnsigned (c : UInt8) : ℕ := if c.toNat < 128 then c.toNat else c.toNat + 2 ^ 32 - 256

/-- The part of `ReadPhysicalRecord` behind the loop that fills the buffer: parse the header at
the start of the buffer. The type is returned with the fragment. -/
def parsePhysicalRecord (r : Reader) : ℕ × Slice × Reader :=
  let a := (r.buffer.getD 4 0).toNat
  let b := (r.buffer.getD 5 0).toNat
  let type := charToUnsigned (r.buffer.getD 6 0)
  let length := a ||| (b <<< 8)
  if r.buffer.length < headerSize + length then
    let cleared := { r with buffer := [] }
    if r.eof then (eofType, [], cleared)
    else (badRecord, [], cleared.reportCorruption r.buffer.length "bad record length")
  else if type = 0 ∧ length = 0 then (badRecord, [], { r with buffer := [] })
  else if r.checksum ∧ extend 0 ((r.buffer.drop 6).take (1 + length)) ≠
      Crc32c.unmask (UInt32.ofNat (Coding.decodeFixed32 r.buffer)) then
    (badRecord, [],
      { r with buffer := [] }.reportCorruption r.buffer.length "checksum mismatch")
  else
    let rest := { r with buffer := r.buffer.drop (headerSize + length) }
    if sub64 (sub64 (sub64 r.endOfBufferOffset rest.buffer.length) headerSize) length <
        r.initialOffset then (badRecord, [], rest)
    else (type, (r.buffer.drop headerSize).take length, rest)

/-- The next block of the file in the buffer. -/
def readBlock (r : Reader) : Reader :=
  let bytes := r.file.contents.take blockSize
  { r with
    file := { r.file with contents := r.file.contents.drop blockSize }
    buffer := bytes
    endOfBufferOffset := (r.endOfBufferOffset + bytes.length) % 2 ^ 64
    eof := bytes.length < blockSize }

/-- `ReadPhysicalRecord`. A buffer that is too short for a header after a read is the last
one of the file. -/
def readPhysicalRecord (r : Reader) : ℕ × Slice × Reader :=
  if r.buffer.length < headerSize then
    if r.eof then (eofType, [], { r with buffer := [] })
    else
      match r.file.error with
      | some status =>
        (eofType, [], { { r with buffer := [] }.reportDrop blockSize status with eof := true })
      | none =>
        if r.readBlock.buffer.length < headerSize then
          (eofType, [], { r.readBlock with buffer := [] })
        else r.readBlock.parsePhysicalRecord extend
  else r.parsePhysicalRecord extend

/-- The loop of `ReadRecord`; the outer `none` says that it has not ended within the fuel, and
the inner one that `ReadRecord` returns false. -/
def readRecordLoop : ℕ → Reader → Bool → ℕ → Slice → Option (Option Slice × Reader)
  | 0, _, _, _, _ => none
  | fuel + 1, r, inFragmented, prospective, scratch =>
    let (type, fragment, r) := r.readPhysicalRecord extend
    let offset := sub64 (sub64 (sub64 r.endOfBufferOffset r.buffer.length) headerSize)
      fragment.length
    if r.resyncing ∧ type = RecordType.middle.code then
      readRecordLoop fuel r inFragmented prospective scratch
    else if r.resyncing ∧ type = RecordType.last.code then
      readRecordLoop fuel { r with resyncing := false } inFragmented prospective scratch
    else
      let r := { r with resyncing := false }
      if type = RecordType.full.code then
        let r := if inFragmented ∧ scratch ≠ [] then
            r.reportCorruption scratch.length "partial record without end(1)"
          else r
        some (some fragment, { r with lastRecordOffset := offset })
      else if type = RecordType.first.code then
        let r := if inFragmented ∧ scratch ≠ [] then
            r.reportCorruption scratch.length "partial record without end(2)"
          else r
        readRecordLoop fuel r true offset fragment
      else if type = RecordType.middle.code then
        if inFragmented then readRecordLoop fuel r true prospective (scratch ++ fragment)
        else
          readRecordLoop fuel
            (r.reportCorruption fragment.length "missing start of fragmented record(1)")
            false prospective scratch
      else if type = RecordType.last.code then
        if inFragmented then
          some (some (scratch ++ fragment), { r with lastRecordOffset := prospective })
        else
          readRecordLoop fuel
            (r.reportCorruption fragment.length "missing start of fragmented record(2)")
            false prospective scratch
      else if type = eofType then some (none, r)
      else if type = badRecord then
        let r := if inFragmented then
            r.reportCorruption scratch.length "error in middle of record"
          else r
        readRecordLoop fuel r false prospective (if inFragmented then [] else scratch)
      else
        readRecordLoop fuel
          (r.reportCorruption (fragment.length + if inFragmented then scratch.length else 0)
            ("unknown record type " ++ toString type))
          false prospective []

/-- `ReadRecord`. Every round of the loop takes bytes from the file or ends it. -/
def readRecord (r : Reader) : Option (Option Slice × Reader) :=
  if r.lastRecordOffset < r.initialOffset then
    match r.skipToInitialBlock with
    | (false, r) => some (none, r)
    | (true, r) =>
      readRecordLoop extend (r.buffer.length + r.file.contents.length + 1) r false 0 []
  else readRecordLoop extend (r.buffer.length + r.file.contents.length + 1) r false 0 []

/-- Call `ReadRecord` until it returns false, as the callers do: the records it returned. -/
def readAll : ℕ → Reader → Option (List Slice × Reader)
  | 0, _ => none
  | fuel + 1, r =>
    (r.readRecord extend).bind fun
      | (none, r) => some ([], r)
      | (some record, r) => (readAll fuel r).map fun p => (record :: p.1, p.2)

end Reader

end Format

end McfKv.Log
