import McfKv.Db.LogRoundTrip

/-!
# What a reader makes of any bytes (`db/log_reader.cc`)

The bytes ahead of a reader need not be what one writer has written. This module says for any
bytes which records the reader returns.

* `Yields` — the next physical record: one that passes the checks is returned, and if a check
  fails the rest of the block is dropped.
* `next` — what the loop of `ReadRecord` does with it. The fragments that have been collected
  are an `Option`: there are none unless `in_fragmented_record` is set.
* `Reads` — the records that are returned up to the end of the file.

What the reader has reported does not influence what it returns, so `Ahead` leaves the reports
open.
-/

namespace McfKv.Log.Reader

variable {extend : UInt32 → Slice → UInt32} {r : Reader} {fixed : Bool × List (ℕ × Status)} {o : ℕ}
  {rest : Slice}

/-! ## Readers that check checksums -/

/-- The reader with other reports. -/
def withReports (r : Reader) (reports : List (ℕ × Status)) : Reader := { r with reports := reports }

theorem reportDrop_eq (r : Reader) (bytes : ℕ) (reason : Status) :
    ∃ reports, r.reportDrop bytes reason = r.withReports reports := by
  unfold reportDrop
  split_ifs
  · exact ⟨_, rfl⟩
  · exact ⟨r.reports, rfl⟩

theorem reportCorruption_eq (r : Reader) (bytes : ℕ) (reason : String) :
    ∃ reports, r.reportCorruption bytes reason = r.withReports reports :=
  r.reportDrop_eq bytes _

/-- A reader that checks checksums, at offset `o` of a block with `rest` ahead of it. -/
def Ahead (r : Reader) (o : ℕ) (rest : Slice) : Prop := ∃ reports, r.At (true, reports) o rest

theorem new_ahead (contents : Slice) : (new ⟨contents, none⟩ true 0).Ahead blockSize contents :=
  ⟨[], new_at contents true⟩

theorem At.withReports (h : r.At fixed o rest)
    (reports : List (ℕ × Status)) : (r.withReports reports).At (fixed.1, reports) o rest :=
  ⟨h.error, h.start, h.resyncing, Prod.ext (congrArg Prod.fst h.fixed :) rfl, h.offset, h.buffer,
    h.contents, h.eof⟩

/-! ## Physical records -/

/-- Wherever a reader is at offset `o` with `rest` ahead of it, it reads this physical record
next, and is then at offset `o'` with `rest'` ahead of it. -/
def Yields (extend : UInt32 → Slice → UInt32) (o : ℕ) (rest : Slice) (type : ℕ) (fragment : Slice)
    (o' : ℕ) (rest' : Slice) : Prop :=
  ∀ r : Reader, r.Ahead o rest →
    ∃ r', r.readPhysicalRecord extend = (type, fragment, r') ∧ r'.Ahead o' rest'

variable {r' : Reader} {t : RecordType} {payload block more : Slice} {k : ℕ}

section

variable (hextend : ∀ c a b, extend (extend c a) b = extend c (a ++ b)) (ht : t ≠ .zero)
  (hfits : behindTrailer o + headerSize + payload.length ≤ blockSize)

include hextend ht hfits

theorem yields_whole (more : Slice) :
    Yields extend o (trailer o ++ (header extend t payload ++ (payload ++ more))) t.code payload
      (behindTrailer o + headerSize + payload.length) more := by
  rintro r ⟨reports, h⟩
  have hall : trailer o ++ (header extend t payload ++ (payload ++ more)) <+:
      trailer o ++ (header extend t payload ++ (payload ++ more)) := List.prefix_refl _
  rcases h.readPhysicalRecord hextend ht hfits hall with
    ⟨rest', r', heq, -, hread, hat⟩ | ⟨r', hlt, -⟩
  · simp only [List.append_cancel_left_eq] at heq
    subst heq
    exact ⟨r', hread, reports, hat⟩
  · simp only [List.length_append, length_header] at hlt
    omega

theorem yields_cut (hrest : rest <+: trailer o ++ (header extend t payload ++ payload))
    (hlt : rest.length < (trailer o ++ (header extend t payload ++ payload)).length) :
    Yields extend o rest eofType [] 0 [] := by
  rintro r ⟨reports, h⟩
  have hrest' : rest <+: trailer o ++ (header extend t payload ++ (payload ++ [])) := by
    rwa [List.append_nil]
  rcases h.readPhysicalRecord hextend ht hfits hrest' with
    ⟨rest', r', heq, -⟩ | ⟨r', -, hread, hat⟩
  · rw [heq] at hlt
    simp only [List.length_append] at hlt
    omega
  · exact ⟨r', hread, reports, hat⟩

end

theorem parsePhysicalRecord_fails (hsum : r.checksum = true) (hfail : ¬ Passes extend r.buffer) :
    ∃ reports, r.parsePhysicalRecord extend =
      (if r.buffer.length < headerSize + lengthAt r.buffer ∧ r.eof then eofType else badRecord, [],
        ({ r with buffer := [] } : Reader).withReports reports) := by
  rw [parsePhysicalRecord_eq]
  by_cases hlong : r.buffer.length < headerSize + lengthAt r.buffer
  · rw [if_pos hlong]
    by_cases heof : r.eof = true
    · rw [if_pos heof, if_pos ⟨hlong, heof⟩]
      exact ⟨r.reports, rfl⟩
    · rw [if_neg heof, if_neg fun h => heof h.2]
      obtain ⟨reports, h⟩ := ({ r with buffer := [] } : Reader).reportCorruption_eq r.buffer.length
        "bad record length"
      exact ⟨reports, by rw [h]⟩
  · have hkind : ¬ (r.buffer.length < headerSize + lengthAt r.buffer ∧ r.eof = true) :=
      fun h => hlong h.1
    rw [if_neg hlong, if_neg hkind]
    by_cases hzero : typeAt r.buffer = 0 ∧ lengthAt r.buffer = 0
    · rw [if_pos hzero]
      exact ⟨r.reports, rfl⟩
    · have hcrc : r.checksum = true ∧ extend 0 ((r.buffer.drop 6).take (1 + lengthAt r.buffer)) ≠
          Crc32c.unmask (UInt32.ofNat (Coding.decodeFixed32 r.buffer)) :=
        ⟨hsum, fun h => hfail ⟨Nat.le_of_not_lt hlong, hzero, h⟩⟩
      rw [if_neg hzero, if_pos hcrc]
      obtain ⟨reports, h⟩ := ({ r with buffer := [] } : Reader).reportCorruption_eq r.buffer.length
        "checksum mismatch"
      exact ⟨reports, by rw [h]⟩

theorem At.cleared (h : r.At fixed o rest) (hlen : blockSize - o ≤ rest.length) :
    ({ r with buffer := [] } : Reader).At fixed blockSize (rest.drop (blockSize - o)) := by
  refine ⟨h.error, h.start, h.resyncing, h.fixed, le_rfl, ?_, ?_, ?_⟩
  · simp
  · simpa using h.contents
  · have heof : r.eof = false := h.eof.trans (decide_eq_false hlen.not_gt)
    simpa using heof

theorem At.advance (h : r.At fixed o rest) (hroom : k ≤ blockSize - o) (hlen : k ≤ rest.length) :
    ({ r with buffer := r.buffer.drop k } : Reader).At fixed (o + k) (rest.drop k) := by
  have ho := h.offset
  refine ⟨h.error, h.start, h.resyncing, h.fixed, by omega, ?_, ?_, ?_⟩
  · dsimp only
    rw [h.buffer, List.drop_take, Nat.sub_sub]
  · rw [List.drop_drop, show k + (blockSize - (o + k)) = blockSize - o by omega]
    exact h.contents
  · rw [List.length_drop]
    exact h.eof.trans (decide_eq_decide.mpr (by omega))

variable (extend) in
theorem At.parses (h : r.At fixed o rest) (hroom : headerSize ≤ blockSize - o)
    (hlen : headerSize ≤ rest.length) :
    r.readPhysicalRecord extend = r.parsePhysicalRecord extend := by
  rw [h.readPhysicalRecord_eq hroom, if_neg hlen.not_gt]

section

variable (hroom : headerSize ≤ blockSize - o)

include hroom

theorem yields_passes {buffer : Slice} (hbuffer : rest.take (blockSize - o) = buffer)
    (hpass : Passes extend buffer) :
    Yields extend o rest (typeAt buffer) ((buffer.drop headerSize).take (lengthAt buffer))
      (o + (headerSize + lengthAt buffer)) (rest.drop (headerSize + lengthAt buffer)) := by
  rintro r ⟨reports, h⟩
  have hbuf : r.buffer = buffer := h.buffer.trans hbuffer
  have hlen := hpass.length
  rw [← hbuffer, List.length_take, hbuffer] at hlen
  have hread := h.parses extend hroom (by omega)
  rw [parsePhysicalRecord_passes h.start (hbuf.symm ▸ hpass :)] at hread
  have hat := h.advance (k := headerSize + lengthAt buffer) (by omega) (by omega)
  subst hbuf
  exact ⟨_, hread, reports, hat⟩

theorem yields_block (hblock : block.length = blockSize - o) (hpass : Passes extend block)
    (more : Slice) :
    Yields extend o (block ++ more) (typeAt block) ((block.drop headerSize).take (lengthAt block))
        (o + (headerSize + lengthAt block)) ((block ++ more).drop (headerSize + lengthAt block)) ∧
      ((block ++ more).drop (headerSize + lengthAt block)).length < (block ++ more).length := by
  have hseven : headerSize = 7 := rfl
  refine ⟨yields_passes hroom (List.take_left' hblock) hpass, ?_⟩
  rw [List.length_drop, List.length_append]
  omega

theorem yields_fails (hblock : block.length = blockSize - o) (hfail : ¬ Passes extend block)
    (more : Slice) : Yields extend o (block ++ more) badRecord [] blockSize more := by
  rintro r ⟨_, h⟩
  have hlen : blockSize - o ≤ (block ++ more).length := by
    rw [List.length_append]
    omega
  have hbuf : r.buffer = block := h.buffer.trans (List.take_left' hblock)
  have heof : r.eof = false := h.eof.trans (decide_eq_false hlen.not_gt)
  obtain ⟨reports, hparse⟩ := parsePhysicalRecord_fails (congrArg Prod.fst h.fixed :)
    (hbuf.symm ▸ hfail :)
  rw [if_neg fun hlong => Bool.false_ne_true (heof.symm.trans hlong.2)] at hparse
  have hat := (h.cleared hlen).withReports reports
  rw [List.drop_left' hblock] at hat
  exact ⟨_, (h.parses extend hroom (hroom.trans hlen)).trans hparse, reports, hat⟩

theorem yields_fails_last (hlen : headerSize ≤ rest.length) (hlast : rest.length < blockSize - o)
    (hfail : ¬ Passes extend rest) : Yields extend o rest
      (if rest.length < headerSize + lengthAt rest then eofType else badRecord) [] 0 [] := by
  rintro r ⟨_, h⟩
  have hbuf : r.buffer = rest := h.buffer.trans (List.take_of_length_le hlast.le)
  have heof : r.eof = true := h.eof.trans (decide_eq_true hlast)
  obtain ⟨reports, hparse⟩ := parsePhysicalRecord_fails (congrArg Prod.fst h.fixed :)
    (hbuf.symm ▸ hfail :)
  have htype : (r.buffer.length < headerSize + lengthAt r.buffer ∧ r.eof = true ↔
      rest.length < headerSize + lengthAt rest) := by
    rw [← hbuf]
    exact ⟨fun h => h.1, fun h => ⟨h, heof⟩⟩
  rw [if_congr htype rfl rfl] at hparse
  exact ⟨_, (h.parses extend hroom hlen).trans hparse, reports, (h.atEnd heof).withReports reports⟩

theorem yields_short (hshort : rest.length < headerSize) :
    Yields extend o rest eofType [] 0 [] := by
  rintro r ⟨reports, h⟩
  have heof : r.eof = true := h.eof.trans (decide_eq_true (hshort.trans_le hroom))
  exact ⟨_, by rw [h.readPhysicalRecord_eq hroom, if_pos hshort], reports, h.atEnd heof⟩

end

theorem yields_short_trailer (htrailer : blockSize - o < headerSize)
    (hshort : rest.length < blockSize - o) : Yields extend o rest eofType [] 0 [] := by
  rintro r ⟨reports, h⟩
  have heof : r.eof = true := h.eof.trans (decide_eq_true hshort)
  rcases h.readPhysicalRecord_trailer extend htrailer with ⟨-, hread⟩ | ⟨hge, -⟩
  · exact ⟨_, hread, reports, h.atEnd heof⟩
  · omega

/-! ## Records -/

/-- What the loop of `ReadRecord` does with a physical record that is not the end of the file:
it returns a record, or goes on with other pending fragments. -/
def next (pending : Option Slice) (type : ℕ) (fragment : Slice) : Slice ⊕ Option Slice :=
  if type = RecordType.full.code then .inl fragment
  else if type = RecordType.first.code then .inr (some fragment)
  else
    match pending with
    | none => .inr none
    | some scratch =>
      if type = RecordType.middle.code then .inr (some (scratch ++ fragment))
      else if type = RecordType.last.code then .inl (scratch ++ fragment)
      else .inr none

theorem next_eq_inl {pending : Option Slice} {type : ℕ} {fragment record : Slice}
    (h : next pending type fragment = .inl record) :
    (type = RecordType.full.code ∨ type = RecordType.last.code) ∧
      ∃ scratch, record = scratch ++ fragment := by
  unfold next at h
  cases pending with
  | none =>
    dsimp only at h
    split_ifs at h with hfull
    exact ⟨Or.inl hfull, [], (Sum.inl.inj h).symm⟩
  | some scratch =>
    dsimp only at h
    split_ifs at h with hfull _ _ hlast
    · exact ⟨Or.inl hfull, [], (Sum.inl.inj h).symm⟩
    · exact ⟨Or.inr hlast, scratch, (Sum.inl.inj h).symm⟩

theorem next_eq_inr (pending : Option Slice) {type : ℕ} (fragment : Slice)
    (htype : ∀ t : RecordType, t ≠ .zero → type ≠ t.code) :
    next pending type fragment = .inr none := by
  unfold next
  cases pending with
  | none => rw [if_neg (htype .full nofun), if_neg (htype .first nofun)]
  | some scratch =>
    dsimp only
    rw [if_neg (htype .full nofun), if_neg (htype .first nofun), if_neg (htype .middle nofun),
      if_neg (htype .last nofun)]

theorem next_badRecord (pending : Option Slice) : next pending badRecord [] = .inr none :=
  next_eq_inr pending [] fun t _ => by cases t <;> decide

theorem Ahead.reportCorruption (h : r.Ahead o rest) (bytes : ℕ) (reason : String) :
    (r.reportCorruption bytes reason).Ahead o rest := by
  obtain ⟨reports, hr⟩ := r.reportCorruption_eq bytes reason
  obtain ⟨_, h⟩ := h
  rw [hr]
  exact ⟨reports, h.withReports reports⟩

theorem Ahead.reportIf (h : r.Ahead o rest) (c : Prop) [Decidable c] (bytes : ℕ)
    (reason : String) : (if c then r.reportCorruption bytes reason else r).Ahead o rest := by
  split_ifs
  · exact h.reportCorruption bytes reason
  · exact h

theorem Ahead.resync (h : r.Ahead o rest) : ({ r with resyncing := false } : Reader).Ahead o rest := by
  obtain ⟨reports, h⟩ := h
  exact ⟨reports, h.error, h.start, rfl, h.fixed, h.offset, h.buffer, h.contents, h.eof⟩

theorem Ahead.lastRecordOffset (h : r.Ahead o rest) (offset : ℕ) :
    ({ r with lastRecordOffset := offset } : Reader).Ahead o rest := by
  obtain ⟨reports, h⟩ := h
  exact ⟨reports, h.error, h.start, h.resyncing, h.fixed, h.offset, h.buffer, h.contents, h.eof⟩

theorem readRecordLoop_next {type o' : ℕ} {fragment rest' : Slice}
    (hread : r.readPhysicalRecord extend = (type, fragment, r')) (hat : r'.Ahead o' rest')
    (htype : type ≠ eofType) (pending : Option Slice) (fuel prospective : ℕ) :
    ∃ r'' prospective', r''.Ahead o' rest' ∧
      readRecordLoop extend (fuel + 1) r pending.isSome prospective (pending.getD []) =
        match next pending type fragment with
        | .inl record => some (some record, r'')
        | .inr pending' =>
          readRecordLoop extend fuel r'' pending'.isSome prospective' (pending'.getD []) := by
  obtain ⟨_, hplace⟩ := id hat
  have hsync := hplace.resyncing
  rw [readRecordLoop, hread]
  dsimp only
  rw [hsync]
  set offset := sub64 (sub64 (sub64 r'.endOfBufferOffset r'.buffer.length) headerSize)
    fragment.length
  have hgo := hat.resync
  rw [if_neg (by simp), if_neg (by simp)]
  unfold next
  by_cases hfull : type = RecordType.full.code
  · rw [if_pos hfull, if_pos hfull]
    exact ⟨_, 0, (hgo.reportIf _ _ _).lastRecordOffset offset, rfl⟩
  rw [if_neg hfull, if_neg hfull]
  by_cases hfirst : type = RecordType.first.code
  · rw [if_pos hfirst, if_pos hfirst]
    exact ⟨_, offset, hgo.reportIf _ _ _, rfl⟩
  rw [if_neg hfirst, if_neg hfirst]
  by_cases hmiddle : type = RecordType.middle.code
  · rw [if_pos hmiddle]
    cases pending with
    | none => exact ⟨_, prospective, hgo.reportCorruption _ _, rfl⟩
    | some scratch => exact ⟨_, prospective, hgo, by dsimp only; rw [if_pos hmiddle]; rfl⟩
  rw [if_neg hmiddle]
  by_cases hlast : type = RecordType.last.code
  · rw [if_pos hlast]
    cases pending with
    | none => exact ⟨_, prospective, hgo.reportCorruption _ _, rfl⟩
    | some scratch =>
      exact ⟨_, 0, hgo.lastRecordOffset prospective,
        by dsimp only; rw [if_neg hmiddle, if_pos hlast]; rfl⟩
  rw [if_neg hlast, if_neg htype]
  by_cases hbad : type = badRecord
  · rw [if_pos hbad]
    cases pending with
    | none => exact ⟨_, prospective, hgo, rfl⟩
    | some scratch =>
      exact ⟨_, prospective, hgo.reportCorruption _ _,
        by dsimp only; rw [if_neg hmiddle, if_neg hlast]; rfl⟩
  rw [if_neg hbad]
  cases pending with
  | none => exact ⟨_, prospective, hgo.reportCorruption _ _, rfl⟩
  | some scratch =>
    exact ⟨_, prospective, hgo.reportCorruption _ _,
      by dsimp only; rw [if_neg hmiddle, if_neg hlast]; rfl⟩

/-- The records that `ReadRecord` returns, from one of its results on. -/
def returned (extend : UInt32 → Slice → UInt32) (fuel : ℕ) :
    Option Slice × Reader → Option (List Slice)
  | (none, _) => some []
  | (some record, r) => (readAll extend fuel r).map fun p => record :: p.1

theorem readAll_succ (fuel : ℕ) (r : Reader) : (readAll extend (fuel + 1) r).map Prod.fst =
    (r.readRecord extend).bind (returned extend fuel) := by
  rw [readAll]
  rcases r.readRecord extend with _ | ⟨_ | record, r'⟩
  · rfl
  · rfl
  · show ((readAll extend fuel r').map _).map _ = (readAll extend fuel r').map _
    rw [Option.map_map]
    rfl

/-- **The records that are read** by a reader in the loop of `ReadRecord`, with the given pending
fragments, up to the end of the file. -/
def Reads (extend : UInt32 → Slice → UInt32) (o : ℕ) (rest : Slice) (pending : Option Slice)
    (out : List Slice) : Prop :=
  ∀ (r : Reader) (fuel fuel' prospective : ℕ), r.Ahead o rest → rest.length < fuel →
    rest.length ≤ fuel' →
    (readRecordLoop extend fuel r pending.isSome prospective (pending.getD [])).bind
      (returned extend fuel') = some out

theorem Ahead.readRecord_eq (h : r.Ahead o rest) :
    r.readRecord extend = readRecordLoop extend (rest.length + 1) r false 0 [] := by
  obtain ⟨_, h⟩ := h
  exact h.readRecord_eq

theorem Reads.readAll_eq {contents : Slice} {out : List Slice}
    (h : Reads extend blockSize contents none out) :
    (readAll extend (contents.length + 1) (new ⟨contents, none⟩ true 0)).map Prod.fst =
      some out := by
  rw [readAll_succ, (new_ahead contents).readRecord_eq]
  exact h _ _ _ 0 (new_ahead contents) (Nat.lt_succ_self _) le_rfl

variable {type o' : ℕ} {fragment rest' : Slice} {pending : Option Slice} {out : List Slice}

theorem Reads.ends (h : Yields extend o rest eofType fragment o' rest') :
    Reads extend o rest pending [] := by
  intro r fuel fuel' prospective hat hfuel _
  obtain ⟨fuel, rfl⟩ := Nat.exists_eq_add_of_lt (Nat.zero_lt_of_lt hfuel)
  obtain ⟨r', hread, _, hat'⟩ := h r hat
  rw [readRecordLoop, hread]
  dsimp only
  rw [hat'.resyncing]
  simp [eofType, RecordType.code, returned]

section

variable (h : Yields extend o rest type fragment o' rest') (htype : type ≠ eofType)
  (hless : rest'.length < rest.length)

include h htype hless

theorem Reads.record {record : Slice} (hnext : next pending type fragment = .inl record)
    (hrest : Reads extend o' rest' none out) : Reads extend o rest pending (record :: out) := by
  intro r fuel fuel' prospective hat hfuel hfuel'
  obtain ⟨fuel, rfl⟩ := Nat.exists_eq_add_of_lt (Nat.zero_lt_of_lt hfuel)
  obtain ⟨fuel', rfl⟩ := Nat.exists_eq_add_of_lt (Nat.zero_lt_of_lt (hless.trans_le hfuel'))
  obtain ⟨r', hread, hat'⟩ := h r hat
  obtain ⟨r'', _, hat'', hloop⟩ :=
    readRecordLoop_next hread hat' htype pending (0 + fuel) prospective
  have hreturned : (readAll extend (0 + fuel' + 1) r'').map Prod.fst = some out := by
    rw [readAll_succ, hat''.readRecord_eq]
    exact hrest r'' _ _ 0 hat'' (Nat.lt_succ_self _) (by omega)
  rw [hloop, hnext]
  show (readAll extend (0 + fuel' + 1) r'').map (List.cons record ∘ Prod.fst) = _
  rw [← Option.map_map, hreturned]
  rfl

theorem Reads.goesOn {pending' : Option Slice} (hnext : next pending type fragment = .inr pending')
    (hrest : Reads extend o' rest' pending' out) : Reads extend o rest pending out := by
  intro r fuel fuel' prospective hat hfuel hfuel'
  obtain ⟨fuel, rfl⟩ := Nat.exists_eq_add_of_lt (Nat.zero_lt_of_lt hfuel)
  obtain ⟨r', hread, hat'⟩ := h r hat
  obtain ⟨r'', prospective', hat'', hloop⟩ :=
    readRecordLoop_next hread hat' htype pending (0 + fuel) prospective
  rw [hloop, hnext]
  exact hrest r'' _ _ prospective' hat'' (by omega) (by omega)

end

theorem Reads.skip (htrailer : blockSize - o < headerSize) (hlen : blockSize - o ≤ rest.length)
    (hrest : Reads extend 0 (rest.drop (blockSize - o)) pending out) :
    Reads extend o rest pending out := by
  intro r fuel fuel' prospective hat hfuel hfuel'
  obtain ⟨fuel, rfl⟩ := Nat.exists_eq_add_of_lt (Nat.zero_lt_of_lt hfuel)
  obtain ⟨reports, hat⟩ := hat
  have hsize : r.buffer.length < headerSize := by
    rw [hat.buffer, List.length_take]
    omega
  have heof : r.eof = false := hat.eof.trans (decide_eq_false hlen.not_gt)
  have hblock : r.readBlock.Ahead 0 (rest.drop (blockSize - o)) :=
    ⟨reports, hat.readBlock⟩
  have hread := readPhysicalRecord_nextBlock extend (r := r) hat.error hsize heof
  have hloop := hrest r.readBlock (0 + fuel + 1) fuel' prospective hblock
    (by rw [List.length_drop]; omega) (by rw [List.length_drop]; omega)
  rw [readRecordLoop, ← hread] at hloop
  rw [readRecordLoop]
  exact hloop

theorem Reads.short (hshort : rest.length < headerSize) : Reads extend o rest pending [] := by
  rcases Nat.lt_or_ge (blockSize - o) headerSize with htrailer | hroom
  · rcases Nat.lt_or_ge rest.length (blockSize - o) with hlt | hge
    · exact .ends (yields_short_trailer htrailer hlt)
    · exact .skip htrailer hge (.ends (yields_short (by decide) (by rw [List.length_drop]; omega)))
  · exact .ends (yields_short hroom hshort)

theorem Reads.behindTrailer (hrest : Reads extend (behindTrailer o) rest pending out) :
    Reads extend o (trailer o ++ rest) pending out := by
  unfold Reader.behindTrailer at hrest
  unfold trailer
  split_ifs at hrest ⊢ with htrailer
  · refine .skip htrailer (by simp) ?_
    rw [List.drop_left' List.length_replicate]
    exact hrest
  · exact hrest

theorem Reads.fails (hroom : headerSize ≤ blockSize - o) (hblock : block.length = blockSize - o)
    (hfail : ¬ Passes extend block) (hrest : Reads extend 0 more none out) :
    Reads extend o (block ++ more) pending out := by
  refine .goesOn (yields_fails hroom hblock hfail more) (by decide) ?_ (next_badRecord pending)
    (.behindTrailer hrest)
  have : 0 < headerSize := by decide
  rw [List.length_append]
  omega

/-- Fewer bytes than a header has behind the first physical record of a block are skipped. -/
theorem Reads.behindRecord (ho : o ≤ blockSize) (hblock : block.length = blockSize - o)
    (hk : k ≤ block.length) (htrailer : block.length < headerSize + k)
    (hrest : Reads extend 0 more pending out) :
    Reads extend (o + k) ((block ++ more).drop k) pending out := by
  have hroom : (block.drop k).length = blockSize - (o + k) := by
    rw [List.length_drop]
    omega
  rw [List.drop_append_of_le_length hk]
  refine .skip (by omega) (by rw [List.length_append]; omega) ?_
  rw [List.drop_left' hroom]
  exact hrest

variable (extend) in
/-- **The last physical record of a file.** The empty record is returned only if the type says
so and the length is zero. -/
theorem exists_reads_last (hroom : headerSize ≤ blockSize - o) (hlen : headerSize ≤ rest.length)
    (hfits : rest.length ≤ blockSize - o) (hone : rest.length < 2 * headerSize + lengthAt rest)
    (pending : Option Slice) :
    ∃ out, Reads extend o rest pending out ∧ (out = [[]] → lengthAt rest = 0 ∧
      (typeAt rest = RecordType.full.code ∨ typeAt rest = RecordType.last.code)) := by
  have hseven : headerSize = 7 := rfl
  by_cases hpass : Passes extend rest
  · have hyields := yields_passes hroom (List.take_of_length_le hfits) hpass
    have hshort : (rest.drop (headerSize + lengthAt rest)).length < headerSize := by
      rw [List.length_drop]
      omega
    have hless : (rest.drop (headerSize + lengthAt rest)).length < rest.length := by omega
    by_cases heof : typeAt rest = eofType
    · rw [heof] at hyields
      exact ⟨[], .ends hyields, nofun⟩
    cases hnext : next pending (typeAt rest) ((rest.drop headerSize).take (lengthAt rest)) with
    | inl record =>
      refine ⟨[record], .record hyields heof hless hnext (.short hshort), fun hempty => ?_⟩
      obtain ⟨htype, scratch, hrecord⟩ := next_eq_inl hnext
      have hlength := congrArg List.length (hrecord.symm.trans (List.cons.inj hempty).1)
      have := hpass.length
      rw [List.length_append, List.length_take, List.length_drop, List.length_nil] at hlength
      exact ⟨by omega, htype⟩
    | inr pending' => exact ⟨[], .goesOn hyields heof hless hnext (.short hshort), nofun⟩
  · refine ⟨[], ?_, nofun⟩
    rcases Nat.lt_or_eq_of_le hfits with hlt | heq
    · have hyields := yields_fails_last hroom hlen hlt hpass
      split_ifs at hyields
      · exact .ends hyields
      · exact .goesOn hyields (by decide) (by rw [List.length_nil]; omega)
          (next_badRecord pending) (.short (by decide))
    · rw [← List.append_nil rest]
      exact .fails hroom heq hpass (.short (by decide))

end McfKv.Log.Reader
