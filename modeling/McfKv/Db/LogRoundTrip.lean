import McfKv.Db.LogFragments

/-!
# Logs read back what was written, up to a truncation

A crash may leave any initial segment of a log. `readAll_truncated`: the reader returns an
initial segment of the records, byte for byte, and reports nothing; it returns all of them if
the file is complete.

The proof goes through three levels.

* `At r o rest` says where a reader is: at offset `o` of a block, with the bytes `rest` ahead
  of it. The buffer, the unread part of the file and `eof_` follow from these.
* `readPhysicalRecord_at` — ahead of the bytes of a physical record, the reader returns it, or
  the end of the file if not all of them are there.
* `Chops.readsBack` — the physical records of a record are read back as the record. The
  induction is on what the loop of the writer writes.
-/

namespace McfKv.Log

theorem prefix_append_cases {α : Type*} {l xs ys : List α} (h : l <+: xs ++ ys) :
    l.length < xs.length ∧ l <+: xs ∨ ∃ zs, l = xs ++ zs ∧ zs <+: ys := by
  rcases Nat.lt_or_ge l.length xs.length with hlt | hge
  · exact Or.inl ⟨hlt, List.prefix_of_prefix_length_le h (List.prefix_append xs ys) hlt.le⟩
  · obtain ⟨zs, rfl⟩ := List.prefix_of_prefix_length_le (List.prefix_append xs ys) h hge
    exact Or.inr ⟨zs, rfl, (List.prefix_append_right_inj xs).mp h⟩

variable {extend : UInt32 → Slice → UInt32}

/-! ## Headers -/

theorem charToUnsigned_code (t : RecordType) :
    Reader.charToUnsigned (UInt8.ofNat t.code) = t.code := by
  cases t <;> decide

theorem length_bytes {n : ℕ} (hn : n < 2 ^ 16) :
    (UInt8.ofNat (n &&& 0xff)).toNat ||| ((UInt8.ofNat (n >>> 8)).toNat <<< 8) = n := by
  have hlow : n &&& 0xff = n % 2 ^ 8 := Nat.and_two_pow_sub_one_eq_mod n 8
  have hbyte : n % 2 ^ 8 < 2 ^ 8 := Nat.mod_lt _ (by omega)
  rw [hlow, UInt8.toNat_ofNat', UInt8.toNat_ofNat', Nat.shiftRight_eq_div_pow,
    Nat.mod_eq_of_lt hbyte, Nat.mod_eq_of_lt (by omega : n / 2 ^ 8 < 2 ^ 8), Nat.or_comm,
    ← Nat.shiftLeft_add_eq_or_of_lt hbyte, Nat.shiftLeft_eq]
  omega

section Header

variable {t : RecordType} {payload tail : Slice}

theorem getD_header (i : ℕ) (hi : i < 3) : (header extend t payload ++ tail).getD (4 + i) 0 =
    [UInt8.ofNat (payload.length &&& 0xff), UInt8.ofNat (payload.length >>> 8),
      UInt8.ofNat t.code].getD i 0 := by
  unfold header
  rw [List.append_assoc, List.getD_append_right _ _ _ _ (by simp), Coding.length_encodeFixed32,
    Nat.add_sub_cancel_left, List.getD_append _ _ _ _ (by simpa using hi)]

/-- The length in the header at the start of the buffer. -/
def Reader.lengthAt (buffer : Slice) : ℕ :=
  (buffer.getD 4 0).toNat ||| ((buffer.getD 5 0).toNat <<< 8)

/-- The type in the header at the start of the buffer. -/
def Reader.typeAt (buffer : Slice) : ℕ := charToUnsigned (buffer.getD 6 0)

theorem Reader.lengthAt_header (hlen : payload.length < 2 ^ 16) (tail : Slice) :
    lengthAt (header extend t payload ++ tail) = payload.length := by
  unfold lengthAt
  rw [show 4 = 4 + 0 from rfl, getD_header 0 (by omega), show 5 = 4 + 1 from rfl,
    getD_header 1 (by omega)]
  exact length_bytes hlen

theorem Reader.typeAt_header (t : RecordType) (payload tail : Slice) :
    typeAt (header extend t payload ++ tail) = t.code := by
  rw [typeAt, show 6 = 4 + 2 from rfl, getD_header 2 (by omega)]
  exact charToUnsigned_code t

theorem unmask_header :
    Crc32c.unmask (UInt32.ofNat (Coding.decodeFixed32 (header extend t payload ++ tail))) =
      extend (typeCrc extend t) payload := by
  unfold header
  rw [List.append_assoc, Coding.decodeFixed32_append,
    Nat.mod_eq_of_lt (UInt32.toNat_lt _), UInt32.ofNat_toNat, Crc32c.unmask_mask]

theorem drop_header : (header extend t payload ++ tail).drop 6 = UInt8.ofNat t.code :: tail := by
  unfold header
  simp [List.drop_append, List.drop_eq_nil_of_le]

end Header

/-! ## Physical records -/

namespace Reader

/-- **A reader at offset `o` of a block with `rest` ahead of it.** Whether it checks checksums and what
it has reported are a parameter: neither changes while it reads what a writer has written. -/
structure At (r : Reader) (fixed : Bool × List (ℕ × Status)) (o : ℕ) (rest : Slice) : Prop where
  error : r.file.error = none
  start : r.initialOffset = 0
  resyncing : r.resyncing = false
  fixed : (r.checksum, r.reports) = fixed
  offset : o ≤ blockSize
  buffer : r.buffer = rest.take (blockSize - o)
  contents : r.file.contents = rest.drop (blockSize - o)
  eof : r.eof = decide (rest.length < blockSize - o)

variable {r : Reader} {fixed : Bool × List (ℕ × Status)} {o : ℕ} {rest : Slice} {t : RecordType}
  {payload tail : Slice}

theorem At.reports_eq (h : r.At fixed o rest) : r.reports = fixed.2 := congrArg Prod.snd h.fixed

theorem new_at (contents : Slice) (checksum : Bool) :
    (new ⟨contents, none⟩ checksum 0).At (checksum, []) blockSize contents where
  error := rfl
  start := rfl
  resyncing := rfl
  fixed := rfl
  offset := le_rfl
  buffer := by simp [new]
  contents := by simp [new]
  eof := by simp [new]

/-- The physical record at the start of the buffer passes the checks of `ReadPhysicalRecord`. -/
structure Passes (extend : UInt32 → Slice → UInt32) (buffer : Slice) : Prop where
  length : headerSize + lengthAt buffer ≤ buffer.length
  nonzero : ¬ (typeAt buffer = 0 ∧ lengthAt buffer = 0)
  checksum : extend 0 ((buffer.drop 6).take (1 + lengthAt buffer)) =
    Crc32c.unmask (UInt32.ofNat (Coding.decodeFixed32 buffer))

/-- A payload of the right length behind a header passes the checks if it has the checksum of the
payload that the header is for. -/
theorem passes_header (hextend : ∀ c a b, extend (extend c a) b = extend c (a ++ b))
    (ht : t ≠ .zero) {payload' : Slice} (hlen : payload.length < 2 ^ 16)
    (hlen' : payload'.length = payload.length) (tail : Slice) :
    Passes extend (header extend t payload ++ (payload' ++ tail)) ↔
      extend (typeCrc extend t) payload' = extend (typeCrc extend t) payload := by
  have hlength : lengthAt (header extend t payload ++ (payload' ++ tail)) = payload.length :=
    lengthAt_header hlen _
  have hcrc : extend 0 (((header extend t payload ++ (payload' ++ tail)).drop 6).take
      (1 + payload.length)) = extend (typeCrc extend t) payload' := by
    rw [drop_header, Nat.add_comm 1, List.take_succ_cons, List.take_left' hlen', typeCrc, hextend]
    rfl
  constructor
  · intro hpass
    have := hpass.checksum
    rwa [hlength, hcrc, unmask_header] at this
  · intro heq
    refine ⟨?_, ?_, ?_⟩
    · rw [hlength, List.length_append, List.length_append, length_header]
      omega
    · rw [typeAt_header]
      exact fun h => by cases t <;> first | exact ht rfl | exact absurd h.1 (by decide)
    · rw [hlength, hcrc, unmask_header, heq]

variable (extend) in
theorem parsePhysicalRecord_eq (r : Reader) : r.parsePhysicalRecord extend =
      if r.buffer.length < headerSize + lengthAt r.buffer then
        if r.eof then (eofType, [], { r with buffer := [] })
        else (badRecord, [], ({ r with buffer := [] } : Reader).reportCorruption r.buffer.length
          "bad record length")
      else if typeAt r.buffer = 0 ∧ lengthAt r.buffer = 0 then
        (badRecord, [], { r with buffer := [] })
      else if r.checksum ∧ extend 0 ((r.buffer.drop 6).take (1 + lengthAt r.buffer)) ≠
          Crc32c.unmask (UInt32.ofNat (Coding.decodeFixed32 r.buffer)) then
        (badRecord, [], ({ r with buffer := [] } : Reader).reportCorruption r.buffer.length
          "checksum mismatch")
      else
        let rest := { r with buffer := r.buffer.drop (headerSize + lengthAt r.buffer) }
        if sub64 (sub64 (sub64 r.endOfBufferOffset rest.buffer.length) headerSize)
            (lengthAt r.buffer) < r.initialOffset then (badRecord, [], rest)
        else (typeAt r.buffer, (r.buffer.drop headerSize).take (lengthAt r.buffer), rest) :=
  rfl

theorem parsePhysicalRecord_passes (hstart : r.initialOffset = 0) (hpass : Passes extend r.buffer) :
    r.parsePhysicalRecord extend =
      (typeAt r.buffer, (r.buffer.drop headerSize).take (lengthAt r.buffer),
        { r with buffer := r.buffer.drop (headerSize + lengthAt r.buffer) }) := by
  rw [parsePhysicalRecord_eq, if_neg hpass.length.not_gt, if_neg hpass.nonzero,
    if_neg fun h => h.2 hpass.checksum, hstart]
  exact if_neg (Nat.not_lt_zero _)

theorem parsePhysicalRecord_whole (hextend : ∀ c a b, extend (extend c a) b = extend c (a ++ b))
    (ht : t ≠ .zero) (hlen : payload.length < 2 ^ 16) (hstart : r.initialOffset = 0)
    (hbuf : r.buffer = header extend t payload ++ (payload ++ tail)) :
    r.parsePhysicalRecord extend = (t.code, payload, { r with buffer := tail }) := by
  have hpass : Passes extend r.buffer := by
    rw [hbuf]
    exact (passes_header hextend ht hlen rfl tail).mpr rfl
  have hdrop : r.buffer.drop headerSize = payload ++ tail := by
    rw [hbuf]
    exact List.drop_left' (length_header t payload)
  have hrest : r.buffer.drop (headerSize + payload.length) = tail := by
    rw [← List.drop_drop, hdrop]
    exact List.drop_left' rfl
  have hlength : lengthAt r.buffer = payload.length := by
    rw [hbuf]
    exact lengthAt_header hlen _
  rw [parsePhysicalRecord_passes hstart hpass, hlength, hrest, hdrop, List.take_left' rfl, hbuf,
    typeAt_header]

theorem parsePhysicalRecord_cut (hlen : payload.length < 2 ^ 16) (heof : r.eof = true)
    (hbuf : r.buffer = header extend t payload ++ tail) (hshort : tail.length < payload.length) :
    r.parsePhysicalRecord extend = (eofType, [], { r with buffer := [] }) := by
  have hsize : r.buffer.length < headerSize + lengthAt r.buffer := by
    rw [hbuf, lengthAt_header hlen, List.length_append, length_header]
    omega
  rw [parsePhysicalRecord_eq, if_pos hsize, if_pos heof]

theorem At.atEnd (h : r.At fixed o rest) (heof : r.eof = true) :
    ({ r with buffer := [] }).At fixed 0 [] := by
  refine ⟨h.error, h.start, h.resyncing, h.fixed, Nat.zero_le _, rfl, ?_, ?_⟩
  · have hlt : rest.length < blockSize - o := by
      rw [h.eof] at heof
      exact of_decide_eq_true heof
    have := h.contents
    rw [List.drop_eq_nil_of_le hlt.le] at this
    simpa using this
  · simpa [blockSize] using heof

theorem At.readBlock (h : r.At fixed o rest) : r.readBlock.At fixed 0 (rest.drop (blockSize - o)) where
  error := h.error
  start := h.start
  resyncing := h.resyncing
  fixed := h.fixed
  offset := Nat.zero_le _
  buffer := by rw [Reader.readBlock, h.contents]; rfl
  contents := by rw [Reader.readBlock, h.contents]; rfl
  eof := by
    rw [Reader.readBlock, h.contents]
    dsimp only
    rw [List.length_take]
    exact decide_eq_decide.mpr (by omega)

theorem At.readPhysicalRecord_eq (h : r.At fixed o rest) (hroom : headerSize ≤ blockSize - o) :
    r.readPhysicalRecord extend =
      if rest.length < headerSize then (eofType, [], { r with buffer := [] })
      else r.parsePhysicalRecord extend := by
  unfold readPhysicalRecord
  have hsize : r.buffer.length < headerSize ↔ rest.length < headerSize := by
    rw [h.buffer, List.length_take]
    omega
  by_cases hshort : rest.length < headerSize
  · have heof : r.eof = true := by
      rw [h.eof]
      exact decide_eq_true (by omega)
    rw [if_pos (hsize.mpr hshort), if_pos heof, if_pos hshort]
  · rw [if_neg (hsize.not.mpr hshort), if_neg hshort]

variable (extend) in
theorem readPhysicalRecord_nextBlock (herror : r.file.error = none)
    (hsize : r.buffer.length < headerSize) (heof : r.eof = false) :
    r.readPhysicalRecord extend = r.readBlock.readPhysicalRecord extend := by
  have hblock : r.readBlock.buffer.length < headerSize → r.readBlock.eof = true := by
    intro hshort
    exact decide_eq_true (hshort.trans (by decide))
  unfold readPhysicalRecord
  rw [if_pos hsize, heof, herror]
  by_cases hshort : r.readBlock.buffer.length < headerSize
  · simp [hshort, hblock hshort]
  · simp [hshort]

variable (extend) in
theorem At.readPhysicalRecord_trailer (h : r.At fixed o rest) (htrailer : blockSize - o < headerSize) :
    (rest.length < blockSize - o ∧
        r.readPhysicalRecord extend = (eofType, [], { r with buffer := [] })) ∨
      (blockSize - o ≤ rest.length ∧
        r.readPhysicalRecord extend = r.readBlock.readPhysicalRecord extend) := by
  have hsize : r.buffer.length < headerSize := by
    rw [h.buffer, List.length_take]
    omega
  rcases Nat.lt_or_ge rest.length (blockSize - o) with hlt | hge
  · have heof : r.eof = true := h.eof.trans (decide_eq_true hlt)
    refine Or.inl ⟨hlt, ?_⟩
    rw [Reader.readPhysicalRecord, if_pos hsize, if_pos heof]
  · have heof : r.eof = false := h.eof.trans (decide_eq_false hge.not_gt)
    exact Or.inr ⟨hge, readPhysicalRecord_nextBlock extend h.error hsize heof⟩

variable {more scratch : Slice} {r' : Reader} {isBegin isEnd : Bool}

section

variable (hextend : ∀ c a b, extend (extend c a) b = extend c (a ++ b)) (h : r.At fixed o rest)
  (ht : t ≠ .zero)

include hextend h ht

/-- **Ahead of a physical record** without a trailer. -/
theorem At.readHere (hfits : o + headerSize + payload.length ≤ blockSize)
    (hrest : rest <+: header extend t payload ++ (payload ++ more)) :
    (∃ rest' r', rest = header extend t payload ++ (payload ++ rest') ∧ rest' <+: more ∧
        r.readPhysicalRecord extend = (t.code, payload, r') ∧
        r'.At fixed (o + headerSize + payload.length) rest') ∨
      ∃ r', rest.length < headerSize + payload.length ∧
        r.readPhysicalRecord extend = (eofType, [], r') ∧ r'.At fixed 0 [] := by
  have hsize : blockSize = 32768 := rfl
  have hlen : payload.length < 2 ^ 16 := by omega
  have heof : rest.length < headerSize + payload.length → r.eof = true := by
    intro hlt
    rw [h.eof]
    exact decide_eq_true (by omega)
  rw [h.readPhysicalRecord_eq (by omega)]
  rcases prefix_append_cases hrest with ⟨hlt, -⟩ | ⟨tail, rfl, htail⟩
  · -- the header is cut off
    rw [length_header] at hlt
    rw [if_pos hlt]
    exact Or.inr ⟨_, by omega, rfl, h.atEnd (heof (by omega))⟩
  · rw [if_neg (by simp)]
    rcases prefix_append_cases htail with ⟨hlt, -⟩ | ⟨rest', rfl, hrest'⟩
    · -- the payload is cut off
      have hshort : (header extend t payload ++ tail).length < headerSize + payload.length := by
        rw [List.length_append, length_header]
        omega
      have hbuf : r.buffer = header extend t payload ++ tail := by
        rw [h.buffer, List.take_of_length_le (by omega)]
      rw [parsePhysicalRecord_cut hlen (heof hshort) hbuf hlt]
      exact Or.inr ⟨_, hshort, rfl, h.atEnd (heof hshort)⟩
    · have hbuf : r.buffer = header extend t payload ++
          (payload ++ rest'.take (blockSize - (o + headerSize + payload.length))) := by
        rw [h.buffer, List.take_append, List.take_of_length_le (by rw [length_header]; omega),
          List.take_append, List.take_of_length_le (by rw [length_header]; omega), length_header]
        congr 3
        omega
      rw [parsePhysicalRecord_whole hextend ht hlen h.start hbuf]
      refine Or.inl ⟨rest', _, rfl, hrest', rfl, h.error, h.start, h.resyncing, h.fixed, hfits,
        rfl, ?_, ?_⟩
      · have hskip : blockSize - o = headerSize + (payload.length +
            (blockSize - (o + headerSize + payload.length))) := by omega
        dsimp only
        rw [h.contents, hskip, ← List.drop_drop, List.drop_left' (length_header t payload),
          ← List.drop_drop, List.drop_left' rfl]
      · dsimp only
        rw [h.eof, List.length_append, List.length_append, length_header]
        exact decide_eq_decide.mpr (by omega)

/-- **Ahead of a physical record** the reader returns it, or the end of the file. -/
theorem At.readPhysicalRecord (hfits : behindTrailer o + headerSize + payload.length ≤ blockSize)
    (hrest : rest <+: trailer o ++ (header extend t payload ++ (payload ++ more))) :
    (∃ rest' r', rest = trailer o ++ (header extend t payload ++ (payload ++ rest')) ∧
        rest' <+: more ∧ r.readPhysicalRecord extend = (t.code, payload, r') ∧
        r'.At fixed (behindTrailer o + headerSize + payload.length) rest') ∨
      ∃ r', rest.length < (trailer o).length + headerSize + payload.length ∧
        r.readPhysicalRecord extend = (eofType, [], r') ∧ r'.At fixed 0 [] := by
  unfold trailer at hrest ⊢
  unfold behindTrailer at hfits ⊢
  by_cases htrailer : blockSize - o < headerSize
  · rw [if_pos htrailer] at hrest hfits ⊢
    rw [if_pos htrailer]
    rw [List.length_replicate]
    rcases h.readPhysicalRecord_trailer extend htrailer with ⟨hlt, heq⟩ | ⟨hge, heq⟩
    · have heof : r.eof = true := h.eof.trans (decide_eq_true hlt)
      exact Or.inr ⟨_, by omega, heq, h.atEnd heof⟩
    · have hblock := h.readBlock
      rcases prefix_append_cases hrest with ⟨hlt, -⟩ | ⟨tail, rfl, htail⟩
      · rw [List.length_replicate] at hlt
        omega
      · rw [List.drop_left' List.length_replicate] at hblock
        rw [heq]
        rcases hblock.readHere hextend ht hfits htail with
          ⟨rest', r', rfl, hrest', hread, hat⟩ | ⟨r', hlt, hread, hat⟩
        · exact Or.inl ⟨rest', r', rfl, hrest', hread, hat⟩
        · refine Or.inr ⟨r', ?_, hread, hat⟩
          rw [List.length_append, List.length_replicate]
          omega
  · rw [if_neg htrailer] at hrest hfits ⊢
    rw [if_neg htrailer]
    rw [List.nil_append] at hrest
    rcases h.readHere hextend ht hfits hrest with
      ⟨rest', r', rfl, hrest', hread, hat⟩ | ⟨r', hlt, hread, hat⟩
    · exact Or.inl ⟨rest', r', rfl, hrest', hread, hat⟩
    · exact Or.inr ⟨r', by simpa using hlt, hread, hat⟩

end

/-! ## Records -/

theorem fragmentType_ne_zero (isBegin isEnd : Bool) : fragmentType isBegin isEnd ≠ .zero := by
  cases isBegin <;> cases isEnd <;> decide

theorem readRecordLoop_eof (hread : r.readPhysicalRecord extend = (eofType, [], r'))
    (hat : r'.At fixed 0 []) (fuel : ℕ) (inFragmented : Bool) (prospective : ℕ) (scratch : Slice) :
    ∃ r'', readRecordLoop extend (fuel + 1) r inFragmented prospective scratch =
        some (none, r'') ∧ r''.At fixed 0 [] := by
  refine ⟨{ r' with resyncing := false }, ?_, ⟨hat.error, hat.start, rfl, hat.fixed, hat.offset,
    hat.buffer, hat.contents, hat.eof⟩⟩
  rw [readRecordLoop, hread]
  dsimp only
  rw [hat.resyncing]
  simp [eofType, RecordType.code]

theorem readRecordLoop_fragment
    (hread : r.readPhysicalRecord extend = ((fragmentType isBegin isEnd).code, payload, r'))
    (hat : r'.At fixed o rest) (hscratch : isBegin = true → scratch = []) (fuel prospective : ℕ) :
    ∃ r'' prospective', r''.At fixed o rest ∧
      readRecordLoop extend (fuel + 1) r (!isBegin) prospective scratch =
        if isEnd then some (some (scratch ++ payload), r'')
        else readRecordLoop extend fuel r'' true prospective' (scratch ++ payload) := by
  have hsame : ∀ offset, ({ r' with resyncing := false, lastRecordOffset := offset }).At fixed o rest :=
    fun _ => ⟨hat.error, hat.start, rfl, hat.fixed, hat.offset, hat.buffer, hat.contents, hat.eof⟩
  rw [readRecordLoop, hread]
  dsimp only
  rw [hat.resyncing]
  set offset := sub64 (sub64 (sub64 r'.endOfBufferOffset r'.buffer.length) headerSize)
    payload.length
  cases isBegin with
  | true =>
    obtain rfl := hscratch rfl
    cases isEnd with
    | true => exact ⟨_, 0, hsame offset, by simp [fragmentType, RecordType.code]⟩
    | false =>
      exact ⟨_, offset, hsame r'.lastRecordOffset, by simp [fragmentType, RecordType.code]⟩
  | false =>
    cases isEnd with
    | true => exact ⟨_, 0, hsame prospective, by simp [fragmentType, RecordType.code]⟩
    | false =>
      exact ⟨_, prospective, hsame r'.lastRecordOffset, by simp [fragmentType, RecordType.code]⟩

/-- **One round of `ReadRecord`** ahead of a fragment: it is appended to the scratch space, or
the file ends. -/
theorem readRecordLoop_round (hextend : ∀ c a b, extend (extend c a) b = extend c (a ++ b))
    {fuel : ℕ} (h : r.At fixed o rest)
    (hfits : behindTrailer o + headerSize + payload.length ≤ blockSize) (hrest : rest <+: trailer o ++
      (header extend (fragmentType isBegin isEnd) payload ++ (payload ++ more)))
    (hfuel : rest.length < fuel + 1) (hscratch : isBegin = true → scratch = []) (prospective : ℕ) :
    (∃ rest' r' prospective', rest' <+: more ∧ rest'.length < fuel ∧ rest = trailer o ++
          (header extend (fragmentType isBegin isEnd) payload ++ (payload ++ rest')) ∧
        r'.At fixed (behindTrailer o + headerSize + payload.length) rest' ∧
        readRecordLoop extend (fuel + 1) r (!isBegin) prospective scratch =
          if isEnd then some (some (scratch ++ payload), r')
          else readRecordLoop extend fuel r' true prospective' (scratch ++ payload)) ∨
      ∃ r', rest.length < (trailer o).length + headerSize + payload.length ∧ r'.At fixed 0 [] ∧
        readRecordLoop extend (fuel + 1) r (!isBegin) prospective scratch = some (none, r') := by
  rcases h.readPhysicalRecord hextend (fragmentType_ne_zero isBegin isEnd) hfits hrest with
    ⟨rest', r', heq, hmore, hread, hat⟩ | ⟨r', hlt, hread, hat⟩
  · obtain ⟨r'', prospective', hat', hloop⟩ :=
      readRecordLoop_fragment hread hat hscratch fuel prospective
    refine Or.inl ⟨rest', r'', prospective', hmore, ?_, heq, hat', hloop⟩
    have hsize : headerSize = 7 := rfl
    rw [heq] at hfuel
    simp only [List.length_append, length_header] at hfuel
    omega
  · obtain ⟨r'', hloop, hat'⟩ := readRecordLoop_eof hread hat fuel (!isBegin) prospective scratch
    exact Or.inr ⟨r'', hlt, hat', hloop⟩

end Reader

/-! ## What the writer writes -/

open Reader

/-- `B` is what the loop of `AddRecord` appends, and ahead of `B` the loop of `ReadRecord`
returns the record, or false if not all of `B` is there. -/
structure ReadsBack (extend : UInt32 → Slice → UInt32) (w w' : Writer) (isBegin : Bool)
    (left B : Slice) : Prop where
  dest : w'.dest = w.dest ++ B
  offset : w'.blockOffset ≤ blockSize
  pos : 0 < B.length
  reads : ∀ (r : Reader) fixed rest more scratch prospective fuel, r.At fixed w.blockOffset rest →
    rest <+: B ++ more → rest.length < fuel → (isBegin = true → scratch = []) →
    (∃ rest' r', rest = B ++ rest' ∧ rest' <+: more ∧ r'.At fixed w'.blockOffset rest' ∧
        readRecordLoop extend fuel r (!isBegin) prospective scratch =
          some (some (scratch ++ left), r')) ∨
      ∃ r', rest.length < B.length ∧ r'.At fixed 0 [] ∧
        readRecordLoop extend fuel r (!isBegin) prospective scratch = some (none, r')

/-- **The physical records of a record** are read back in the loop of `ReadRecord`. The reader
goes through its loop in step with the writer. -/
theorem Chops.readsBack (hextend : ∀ c a b, extend (extend c a) b = extend c (a ++ b)) {o : ℕ}
    {isBegin : Bool} {left : Slice} {fs : List Fragment} (h : Chops o isBegin left fs)
    (dest : Slice) :
    ReadsBack extend ⟨dest, o⟩ ⟨dest ++ fragmentBytes extend fs, behind o fs⟩ isBegin left
      (fragmentBytes extend fs) := by
  refine ⟨rfl, h.behind_le, h.length_pos, ?_⟩
  dsimp only
  induction h with
  | @last o isBegin payload ho hfits =>
    intro r fixed rest more scratch prospective fuel hat hrest hfuel hscratch
    obtain ⟨fuel, rfl⟩ := Nat.exists_eq_add_of_lt (Nat.zero_lt_of_lt hfuel)
    rw [Nat.zero_add] at hfuel ⊢
    have hroom : behindTrailer o + headerSize + payload.length ≤ blockSize := hfits
    rw [fragmentBytes_singleton, Fragment.bytes_placed] at hrest ⊢
    rcases readRecordLoop_round hextend hat hroom (by simpa using hrest) hfuel hscratch
      prospective with
      ⟨rest', r', prospective', hmore, -, heq, hat', hloop⟩ | ⟨r', hlt, hat', hloop⟩
    · exact Or.inl ⟨rest', r', by simpa using heq, hmore, hat', hloop⟩
    · exact Or.inr ⟨r', by simp only [List.length_append, length_header]; omega, hat', hloop⟩
  | @more o isBegin payload left fs ho hfills hrest ih =>
    intro r fixed rest more scratch prospective fuel hat hrest hfuel hscratch
    obtain ⟨fuel, rfl⟩ := Nat.exists_eq_add_of_lt (Nat.zero_lt_of_lt hfuel)
    rw [Nat.zero_add] at hfuel ⊢
    have hroom : behindTrailer o + headerSize + payload.length = blockSize := hfills
    rw [fragmentBytes_cons, Fragment.bytes_placed] at hrest ⊢
    rcases readRecordLoop_round hextend hat hroom.le (by simpa using hrest) hfuel hscratch
      prospective with
      ⟨rest₁, r₁, prospective', hmore, hfuel₁, heq, hat₁, hloop⟩ | ⟨r', hlt, hat', hloop⟩
    · rw [if_neg Bool.false_ne_true] at hloop
      rw [hloop]
      have hbehind : behind o (.placed o (fragmentType isBegin false) payload :: fs) =
          behind blockSize fs := by
        rw [← hfills]
        rfl
      rw [hbehind]
      rcases ih r₁ fixed rest₁ more (scratch ++ payload) prospective' fuel (hroom ▸ hat₁) hmore
        hfuel₁ nofun with ⟨rest', r', heq', hmore', hat', hloop'⟩ | ⟨r', hlt, hat', hloop'⟩
      · refine Or.inl ⟨rest', r', by rw [heq, heq']; simp, hmore', hat', ?_⟩
        rw [← List.append_assoc]
        exact hloop'
      · refine Or.inr ⟨r', ?_, hat', hloop'⟩
        rw [heq]
        simp only [List.length_append]
        omega
    · exact Or.inr ⟨r', by simp only [List.length_append, length_header]; omega, hat', hloop⟩

/-- **What `AddRecord` appends is read back as one record.** -/
theorem addRecord_spec (hextend : ∀ c a b, extend (extend c a) b = extend c (a ++ b)) (w : Writer)
    (hw : w.blockOffset ≤ blockSize) (record : Slice) :
    ∃ B, ReadsBack extend w (w.addRecord extend record) true record B := by
  rw [addRecord_eq]
  exact ⟨_, (recordFragments_chops hw record).readsBack hextend w.dest⟩

theorem Reader.At.readRecord_eq {r : Reader} {fixed : Bool × List (ℕ × Status)} {o : ℕ}
    {rest : Slice} (h : r.At fixed o rest) :
    r.readRecord extend = readRecordLoop extend (rest.length + 1) r false 0 [] := by
  have hfuel : r.buffer.length + r.file.contents.length = rest.length := by
    rw [h.buffer, h.contents, ← List.length_append, List.take_append_drop]
  unfold Reader.readRecord
  rw [h.start, if_neg (Nat.not_lt_zero _), hfuel]

theorem Reader.At.readRecord_nil (hextend : ∀ c a b, extend (extend c a) b = extend c (a ++ b))
    {r : Reader} {fixed : Bool × List (ℕ × Status)} {o : ℕ} (h : r.At fixed o []) :
    ∃ r', r'.At fixed 0 [] ∧ r.readRecord extend = some (none, r') := by
  rw [h.readRecord_eq]
  -- the record that the writer would write next is not there
  have hnone : ([] : Slice) <+: trailer o ++
      (header extend (fragmentType true true) [] ++ ([] ++ [])) := List.nil_prefix
  have hfits : behindTrailer o + headerSize + ([] : Slice).length ≤ blockSize :=
    behindTrailer_le h.offset
  rcases readRecordLoop_round hextend h hfits hnone Nat.one_pos (fun _ => rfl) 0 with
    ⟨_, _, _, -, -, heq, -⟩ | ⟨r', -, hat, hloop⟩
  · have hlen := congrArg List.length heq
    simp only [List.length_append, length_header, List.length_nil, headerSize] at hlen
    omega
  · exact ⟨r', hat, hloop⟩

/-- **A log read back.** The induction is on the records; the bytes ahead of the reader are an
initial segment of what the writer has still to write. -/
theorem readAll_addRecords (hextend : ∀ c a b, extend (extend c a) b = extend c (a ++ b)) :
    ∀ (records : List Slice) (w : Writer), w.blockOffset ≤ blockSize →
      ∃ D, (w.addRecords extend records).dest = w.dest ++ D ∧
        ∀ (r : Reader) rest fuel, r.At (true, []) w.blockOffset rest → rest <+: D →
          rest.length < fuel →
          ∃ k r', r.readAll extend fuel = some (records.take k, r') ∧ r'.reports = [] ∧
            (rest = D → records.take k = records) := by
  intro records
  induction records with
  | nil =>
    intro w hw
    refine ⟨[], by simp [Writer.addRecords], fun r rest fuel hat hrest hfuel => ?_⟩
    obtain rfl := List.prefix_nil.mp hrest
    obtain ⟨fuel, rfl⟩ := Nat.exists_eq_add_of_lt (Nat.zero_lt_of_lt hfuel)
    obtain ⟨r', hat', hread⟩ := hat.readRecord_nil hextend
    exact ⟨0, r', by rw [Nat.zero_add, Reader.readAll, hread]; rfl, hat'.reports_eq, fun _ => rfl⟩
  | cons record records ih =>
    intro w hw
    obtain ⟨B, hB⟩ := addRecord_spec hextend w hw record
    obtain ⟨D, hdest, hreads⟩ := ih (w.addRecord extend record) hB.offset
    refine ⟨B ++ D, ?_, ?_⟩
    · rw [← List.append_assoc, ← hB.dest, ← hdest]
      rfl
    · intro r rest fuel hat hrest hfuel
      obtain ⟨fuel, rfl⟩ := Nat.exists_eq_add_of_lt (Nat.zero_lt_of_lt hfuel)
      rw [Nat.zero_add] at hfuel ⊢
      rw [Reader.readAll, hat.readRecord_eq]
      rcases hB.reads r _ rest D [] 0 (rest.length + 1) hat hrest (Nat.lt_succ_self _)
          fun _ => rfl with
        ⟨rest', r', rfl, hrest', hat', hread⟩ | ⟨r', hlt, hat', hread⟩
      · rw [Bool.not_true] at hread
        have hpos := hB.pos
        rw [List.length_append] at hfuel
        obtain ⟨k, r'', hall, hquiet, hwhole⟩ := hreads r' rest' fuel hat' hrest' (by omega)
        rw [hread]
        refine ⟨k + 1, r'', ?_, hquiet, fun heq => ?_⟩
        · rw [Option.bind_some]
          dsimp only
          rw [hall]
          rfl
        · rw [List.take_succ_cons, hwhole (List.append_cancel_left heq)]
      · rw [Bool.not_true] at hread
        rw [hread]
        refine ⟨0, r', rfl, hat'.reports_eq, fun heq => ?_⟩
        rw [heq, List.length_append] at hlt
        omega

theorem new_addRecords (extend : UInt32 → Slice → UInt32) (records : List Slice) :
    (Writer.new.addRecords extend records).dest =
      ((⟨[], blockSize⟩ : Writer).addRecords extend records).dest := by
  cases records with
  | nil => rfl
  | cons record records => rfl

/-- **Round trip with truncation.** The file is what `AddRecord` has written for the records,
cut after `n` bytes. The reader returns an initial segment of the records and reports no
corruption, and it returns all records if nothing is cut off. -/
theorem readAll_truncated (hextend : ∀ c a b, extend (extend c a) b = extend c (a ++ b))
    (records : List Slice) (n : ℕ) :
    ∃ k r', (Reader.new ⟨(Writer.new.addRecords extend records).dest.take n, none⟩ true 0).readAll
        extend (n + 1) = some (records.take k, r') ∧ r'.reports = [] ∧
      ((Writer.new.addRecords extend records).dest.length ≤ n → records.take k = records) := by
  rw [new_addRecords]
  obtain ⟨D, hdest, hreads⟩ :=
    readAll_addRecords hextend records (⟨[], blockSize⟩ : Writer) le_rfl
  rw [hdest, List.nil_append]
  obtain ⟨k, r', hread, hquiet, hall⟩ := hreads _ (D.take n) (n + 1) (new_at (D.take n) true)
    (List.take_prefix n D) (by rw [List.length_take]; omega)
  exact ⟨k, r', hread, hquiet, fun hlen => hall (List.take_of_length_le hlen)⟩

/-- Two records, with the CRC-32C of the source, cut in the second one. -/
theorem readAll_truncated_twoRecords :
    ∃ k r', (Reader.new ⟨(Writer.new.addRecords Crc32c.extend [[1, 2], [3]]).dest.take 16, none⟩
        true 0).readAll Crc32c.extend 17 = some (([[1, 2], [3]] : List Slice).take k, r') ∧
      r'.reports = [] ∧
      ((Writer.new.addRecords Crc32c.extend [[1, 2], [3]]).dest.length ≤ 16 →
        ([[1, 2], [3]] : List Slice).take k = [[1, 2], [3]]) :=
  readAll_truncated Crc32c.extend_extend [[1, 2], [3]] 16

end McfKv.Log
