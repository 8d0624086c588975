import McfKv.Db.DbFormat
import McfKv.Util.Crc32c

/-!
# Block handles, footers and raw blocks (`table/format.cc`, `TableBuilder::WriteRawBlock`)

A block is stored with a trailer: a byte for the compression, and a checksum. A block handle
says where the block is. The footer at the end of a file has the handles of the metaindex
block and of the index block.

Each of the three is read back: `decodeFrom_encodeTo`, `Footer.decodeFrom_encodeTo` and
`readBlock_rawBlock`.
-/

namespace McfKv

open Coding

/-! ## Block handles -/

/-- `class BlockHandle`. -/
structure BlockHandle where
  offset : ℕ
  size : ℕ
deriving DecidableEq, Repr

namespace BlockHandle

/-- `BlockHandle::EncodeTo`. -/
def encodeTo (h : BlockHandle) : Slice := encodeVarint64 h.offset ++ encodeVarint64 h.size

/-- `BlockHandle::DecodeFrom`: the handle and the unread input. -/
def decodeFrom (input : Slice) : Except Status (BlockHandle × Slice) :=
  match (getVarint64 input).bind fun (offset, input) =>
      (getVarint64 input).map fun (size, input) => ((⟨offset, size⟩ : BlockHandle), input) with
  | some r => .ok r
  | none => .error (.corruption "bad block handle" "")

/-- The fields of a handle have 64 bits. -/
def Fits (h : BlockHandle) : Prop := h.offset < 2 ^ 64 ∧ h.size < 2 ^ 64

theorem decodeFrom_encodeTo {h : BlockHandle} (hfits : h.Fits) (rest : Slice) :
    decodeFrom (h.encodeTo ++ rest) = .ok (h, rest) := by
  unfold decodeFrom encodeTo
  rw [List.append_assoc, getVarint64_encodeVarint64 hfits.1, Option.bind_some]
  dsimp only
  rw [getVarint64_encodeVarint64 hfits.2]
  rfl

theorem length_encodeVarintLoop_le (n v : ℕ) : (encodeVarintLoop n v).length ≤ n + 1 := by
  induction n generalizing v with
  | zero => simp [encodeVarintLoop]
  | succ n ih =>
    unfold encodeVarintLoop
    split_ifs
    · simp
    · simpa using ih (v >>> 7)

theorem length_encodeTo_le (h : BlockHandle) : h.encodeTo.length ≤ 20 := by
  have h1 := length_encodeVarintLoop_le 9 h.offset
  have h2 := length_encodeVarintLoop_le 9 h.size
  simp only [encodeTo, encodeVarint64, List.length_append]
  omega

end BlockHandle

/-! ## The footer -/

/-- `kTableMagicNumber`. -/
def tableMagicNumber : ℕ := 0xdb4775248b80fb57

/-- `class Footer`. -/
structure Footer where
  metaindexHandle : BlockHandle
  indexHandle : BlockHandle
deriving DecidableEq, Repr

namespace Footer

/-- `Footer::kEncodedLength`. -/
def encodedLength : ℕ := 48

/-- `std::string::resize`. -/
def resize (s : Slice) (n : ℕ) : Slice := s.take n ++ List.replicate (n - s.length) 0

/-- `Footer::EncodeTo`. -/
def encodeTo (f : Footer) : Slice :=
  resize (f.metaindexHandle.encodeTo ++ f.indexHandle.encodeTo) 40 ++
    (encodeFixed32 (tableMagicNumber % 2 ^ 32) ++ encodeFixed32 (tableMagicNumber >>> 32))

/-- `Footer::DecodeFrom` on the last bytes of a file. -/
def decodeFrom (input : Slice) : Except Status Footer :=
  let magicPtr := input.drop (encodedLength - 8)
  let magic := decodeFixed32 (magicPtr.drop 4) <<< 32 ||| decodeFixed32 magicPtr
  if magic ≠ tableMagicNumber then .error (.corruption "not an sstable (bad magic number)" "")
  else
    match BlockHandle.decodeFrom input with
    | .error s => .error s
    | .ok (metaindexHandle, input) =>
      match BlockHandle.decodeFrom input with
      | .error s => .error s
      | .ok (indexHandle, _) => .ok ⟨metaindexHandle, indexHandle⟩

theorem resize_eq {s : Slice} {n : ℕ} (h : s.length ≤ n) :
    resize s n = s ++ List.replicate (n - s.length) 0 := by
  unfold resize
  rw [List.take_of_length_le h]

theorem length_handles_le (f : Footer) :
    (f.metaindexHandle.encodeTo ++ f.indexHandle.encodeTo).length ≤ 40 := by
  have h1 := f.metaindexHandle.length_encodeTo_le
  have h2 := f.indexHandle.length_encodeTo_le
  rw [List.length_append]
  omega

@[simp] theorem length_encodeTo (f : Footer) : f.encodeTo.length = encodedLength := by
  have := f.length_handles_le
  unfold encodeTo encodedLength
  rw [resize_eq this]
  simp only [List.length_append, List.length_replicate, length_encodeFixed32] at this ⊢
  omega

theorem decodeFrom_encodeTo {f : Footer} (hmeta : f.metaindexHandle.Fits)
    (hindex : f.indexHandle.Fits) : decodeFrom f.encodeTo = .ok f := by
  have hlen := f.length_handles_le
  have hhandles : f.encodeTo = f.metaindexHandle.encodeTo ++ (f.indexHandle.encodeTo ++
      (List.replicate (40 - (f.metaindexHandle.encodeTo ++ f.indexHandle.encodeTo).length)
        (0 : UInt8) ++
        (encodeFixed32 (tableMagicNumber % 2 ^ 32) ++ encodeFixed32 (tableMagicNumber >>> 32)))) := by
    unfold encodeTo
    rw [resize_eq hlen]
    simp only [List.append_assoc]
  have hmagic : f.encodeTo.drop (encodedLength - 8) =
      encodeFixed32 (tableMagicNumber % 2 ^ 32) ++ encodeFixed32 (tableMagicNumber >>> 32) := by
    unfold encodeTo
    refine List.drop_left' ?_
    rw [resize_eq hlen, List.length_append, List.length_replicate]
    simp only [encodedLength]
    omega
  unfold decodeFrom
  dsimp only
  rw [hmagic, if_neg (by decide), hhandles, BlockHandle.decodeFrom_encodeTo hmeta]
  dsimp only
  rw [BlockHandle.decodeFrom_encodeTo hindex]

end Footer

/-! ## Raw blocks -/

/-- `enum CompressionType`. -/
inductive CompressionType where
  | noCompression
  | snappyCompression
deriving DecidableEq, Repr

/-- The byte of a compression type. -/
def CompressionType.code : CompressionType → UInt8
  | .noCompression => 0
  | .snappyCompression => 1

/-- `kBlockTrailerSize`. -/
def blockTrailerSize : ℕ := 5

/-- What `WriteRawBlock` appends to the file. -/
def rawBlock (contents : Slice) (type : CompressionType) : Slice :=
  let crc := Crc32c.extend (Crc32c.extend 0 contents) [type.code]
  contents ++ (type.code :: encodeFixed32 (Crc32c.mask crc).toNat)

@[simp] theorem length_rawBlock (contents : Slice) (type : CompressionType) :
    (rawBlock contents type).length = contents.length + blockTrailerSize := by
  simp [rawBlock, blockTrailerSize]

/-- `ReadBlock`. The file returns the bytes that were written, as far as there are any.
`uncompress` stands for the Snappy library. -/
def readBlock (uncompress : Slice → Option Slice) (verifyChecksums : Bool) (file : Slice)
    (handle : BlockHandle) : Except Status Slice :=
  let n := handle.size
  let contents := (file.drop handle.offset).take (n + blockTrailerSize)
  if contents.length ≠ n + blockTrailerSize then .error (.corruption "truncated block read" "")
  else
    let crc := Crc32c.unmask (UInt32.ofNat (decodeFixed32 (contents.drop (n + 1))))
    let actual := Crc32c.extend 0 (contents.take (n + 1))
    if verifyChecksums ∧ actual ≠ crc then .error (.corruption "block checksum mismatch" "")
    else
      match contents[n]? with
      | some 0 => .ok (contents.take n)
      | some 1 =>
        match uncompress (contents.take n) with
        | some data => .ok data
        | none => .error (.corruption "corrupted compressed block contents" "")
      | _ => .error (.corruption "bad block type" "")

variable {file contents : Slice} {offset : ℕ}

/-- **A raw block is read back**, with or without a check of its checksum. -/
theorem readBlock_rawBlock (uncompress : Slice → Option Slice) (verifyChecksums : Bool)
    {more : Slice} (h : file.drop offset = rawBlock contents .noCompression ++ more) :
    readBlock uncompress verifyChecksums file ⟨offset, contents.length⟩ = .ok contents := by
  have htake : (file.drop offset).take (contents.length + blockTrailerSize) =
      rawBlock contents .noCompression := by
    rw [h]
    exact List.take_left' (length_rawBlock _ _)
  have hbyte : (rawBlock contents .noCompression)[contents.length]? = some 0 := by
    simp [rawBlock, CompressionType.code]
  have hdata : (rawBlock contents .noCompression).take contents.length = contents := by
    simp [rawBlock]
  obtain ⟨crc, hcrc⟩ : ∃ crc, crc = Crc32c.mask (Crc32c.extend (Crc32c.extend 0 contents)
      [CompressionType.noCompression.code]) := ⟨_, rfl⟩
  have hraw : rawBlock contents .noCompression =
      (contents ++ [CompressionType.noCompression.code]) ++ encodeFixed32 crc.toNat := by
    simp [rawBlock, hcrc]
  have hlen : (contents ++ [CompressionType.noCompression.code]).length = contents.length + 1 := by
    simp
  have hcovered : (rawBlock contents .noCompression).take (contents.length + 1) =
      contents ++ [CompressionType.noCompression.code] := by
    rw [hraw]
    exact List.take_left' hlen
  have hstored : (rawBlock contents .noCompression).drop (contents.length + 1) =
      encodeFixed32 crc.toNat := by
    rw [hraw]
    exact List.drop_left' hlen
  have hdecode : ∀ c : UInt32, UInt32.ofNat (decodeFixed32 (encodeFixed32 c.toNat)) = c := by
    intro c
    have hc := decodeFixed32_append c.toNat []
    rw [List.append_nil] at hc
    rw [hc, Nat.mod_eq_of_lt c.toNat_lt, UInt32.ofNat_toNat]
  unfold readBlock
  dsimp only
  rw [htake, length_rawBlock, if_neg (by simp), hcovered, hstored, hdecode, hcrc,
    Crc32c.unmask_mask, Crc32c.extend_extend, if_neg (by simp), hbyte, hdata]
  rfl

/-- The raw block of some contents is in the file, at an offset. -/
def Located (file contents : Slice) (offset : ℕ) : Prop :=
  ∃ before more, file = before ++ (rawBlock contents .noCompression ++ more) ∧
    offset = before.length

theorem located_append (file contents more : Slice) :
    Located (file ++ rawBlock contents .noCompression ++ more) contents file.length :=
  ⟨file, more, by simp, rfl⟩

theorem Located.append (h : Located file contents offset) (more : Slice) :
    Located (file ++ more) contents offset := by
  obtain ⟨before, after, rfl, hoffset⟩ := h
  exact ⟨before, after ++ more, by simp, hoffset⟩

theorem Located.offset_le (h : Located file contents offset) :
    offset + contents.length ≤ file.length := by
  obtain ⟨before, after, rfl, rfl⟩ := h
  simp only [List.length_append, length_rawBlock]
  omega

theorem Located.readBlock (h : Located file contents offset) (uncompress : Slice → Option Slice)
    (verifyChecksums : Bool) :
    McfKv.readBlock uncompress verifyChecksums file ⟨offset, contents.length⟩ = .ok contents := by
  obtain ⟨before, after, rfl, rfl⟩ := h
  exact readBlock_rawBlock uncompress verifyChecksums List.drop_left

end McfKv
