import McfKv.Db.LogReader

/-!
# Reuse of a log after a crash (`db/db_impl.cc`, `db/log_writer.cc`, `db/log_reader.cc`)

With `reuse_logs`, `RecoverLogFile` goes on with the last log: it opens the file for appending and
makes a writer with the length of the file. A crash may have left any initial segment of what
was written, and the writer does not look at it.

`recovers_iff` says when the records that survived the crash and all records that are appended
later are read back, whatever is appended. The cut has to be in front of a physical record; or
fewer bytes of its block than a header has are left, which the writer fills with zeros, and the
zeros do not complete the record that was cut. Otherwise the reader takes bytes of the first new
record for the rest of the old one, and drops the block.
-/

namespace McfKv.Log

open Reader

variable (extend : UInt32 → Slice → UInt32)

/-- The log that `RecoverLogFile` goes on with: the writer for a file of the size that
`GetFileSize` returns. -/
def reuseLog (contents : Slice) : Writer := Writer.newAt contents contents.length

/-- The records of which the first `n` bytes of the file contain everything. -/
def Writer.surviving (w : Writer) : List Slice → ℕ → List Slice
  | [], _ => []
  | record :: records, n =>
    let w := w.addRecord extend record
    if w.dest.length ≤ n then record :: w.surviving records n else []

/-- The log with records, of which a crash has left the first `n` bytes, and records that are
appended to it afterwards. -/
def reusedLog (records : List Slice) (n : ℕ) (appended : List Slice) : Slice :=
  ((reuseLog ((Writer.new.addRecords extend records).dest.take n)).addRecords extend appended).dest

/-- The records that a reader returns for a file. The fuel is enough, as every record takes
bytes of the file. -/
def recordsOf (contents : Slice) : Option (List Slice) :=
  (readAll extend (contents.length + 1) (Reader.new ⟨contents, none⟩ true 0)).map Prod.fst

/-- The property of one log, one cut and one list of records that are appended. -/
def Recovers (records : List Slice) (n : ℕ) (appended : List Slice) : Prop :=
  recordsOf extend (reusedLog extend records n appended) =
    some (Writer.new.surviving extend records n ++ appended)

instance (records : List Slice) (n : ℕ) (appended : List Slice) :
    Decidable (Recovers extend records n appended) := by
  unfold Recovers
  infer_instance

/-! ## The cuts that lose nothing -/

namespace Fragment

variable (f : Fragment)

/-- The record that the first `q` bytes of a physical record, header and payload, are part of is
complete when zeros take the place of the others. -/
def Revived (q : ℕ) : Prop :=
  headerSize ≤ q ∧ (f.type = .full ∨ f.type = .last) ∧
    extend (typeCrc extend f.type) (f.payload.take (q - headerSize) ++
      List.replicate (f.payload.length - (q - headerSize)) 0) =
      extend (typeCrc extend f.type) f.payload

instance (q : ℕ) : Decidable (f.Revived extend q) := by
  unfold Revived
  infer_instance

end Fragment

/-- The physical record that is cut when `n` bytes are left, and how many of its bytes are. -/
def cutAt : List Fragment → ℕ → Option (Fragment × ℕ)
  | [], _ => none
  | f :: fs, n => if n < f.size then some (f, n) else cutAt fs (n - f.size)

/-- **The cuts that lose nothing.** -/
def Resumable (records : List Slice) (n : ℕ) : Prop :=
  match cutAt (fragments 0 records) n with
  | none => True
  | some (f, i) => i ≤ f.leftover ∨
      blockSize - n % blockSize < headerSize ∧ ¬ f.Revived extend (i - f.leftover)

instance (records : List Slice) (n : ℕ) : Decidable (Resumable extend records n) := by
  unfold Resumable
  split <;> infer_instance

/-! ## Reading physical records -/

variable {extend}

theorem next_fragmentType {isBegin : Bool} (isEnd : Bool) {pending : Option Slice}
    (hpending : isBegin = false → pending.isSome) (fragment : Slice) :
    next pending (fragmentType isBegin isEnd).code fragment =
      if isEnd then .inl ((if isBegin then [] else pending.getD []) ++ fragment)
      else .inr (some ((if isBegin then [] else pending.getD []) ++ fragment)) := by
  cases isBegin with
  | true => cases isEnd <;> rfl
  | false =>
    obtain ⟨scratch, rfl⟩ := Option.isSome_iff_exists.mp (hpending rfl)
    cases isEnd <;> rfl

theorem fragmentType_code_ne_eof (isBegin isEnd : Bool) :
    (fragmentType isBegin isEnd).code ≠ eofType := by
  cases isBegin <;> cases isEnd <;> decide

section Reading

variable (hextend : ∀ c a b, extend (extend c a) b = extend c (a ++ b))
include hextend

theorem yields_placed {o : ℕ} (isBegin isEnd : Bool) (payload : Slice)
    (hfits : (Fragment.placed o (fragmentType isBegin isEnd) payload).behind ≤ blockSize)
    (more : Slice) : Yields extend o
      ((Fragment.placed o (fragmentType isBegin isEnd) payload).bytes extend ++ more)
      (fragmentType isBegin isEnd).code payload
      (Fragment.placed o (fragmentType isBegin isEnd) payload).behind more := by
  have hyields := yields_whole hextend (fragmentType_ne_zero isBegin isEnd) hfits more
  rw [Fragment.bytes_placed, List.append_assoc, List.append_assoc]
  exact hyields

/-- The physical records of a record are read as the record. At its start it does not matter
whether fragments of another record are pending. -/
theorem Chops.reads {o : ℕ} {isBegin : Bool} {left : Slice} {fs : List Fragment}
    (h : Chops o isBegin left fs) {pending : Option Slice}
    (hpending : isBegin = false → pending.isSome) {more : Slice} {out : List Slice}
    (hmore : Reads extend (behind o fs) more none out) :
    Reads extend o (fragmentBytes extend fs ++ more) pending
      (((if isBegin then [] else pending.getD []) ++ left) :: out) := by
  induction h generalizing pending with
  | last ho hfits =>
    rw [fragmentBytes_cons, List.append_assoc]
    refine .record (yields_placed hextend _ true _ hfits _) (fragmentType_code_ne_eof _ _)
      (Fragment.lt_length_bytes_append _ _) (next_fragmentType true hpending _) hmore
  | @more o isBegin payload left fs ho hfills hrest ih =>
    have hmore' : Reads extend (behind blockSize fs) more none out := by
      rw [← hfills]
      exact hmore
    rw [fragmentBytes_cons, List.append_assoc, ← List.append_assoc _ payload left]
    refine .goesOn (yields_placed hextend _ false _ hfills.le _) (fragmentType_code_ne_eof _ _)
      (Fragment.lt_length_bytes_append _ _) (next_fragmentType false hpending _) ?_
    rw [hfills]
    exact ih (fun _ => rfl) hmore'

/-- **Records that are appended are read**, whatever fragments are pending. -/
theorem reads_fragments (records : List Slice) {o : ℕ} (ho : o ≤ blockSize)
    (pending : Option Slice) :
    Reads extend o (fragmentBytes extend (fragments o records)) pending records := by
  induction records generalizing o pending with
  | nil => exact .short (show ([] : Slice).length < headerSize by decide)
  | cons record records ih =>
    have hchops := recordFragments_chops ho record
    rw [fragments, fragmentBytes_append]
    exact hchops.reads hextend (by simp) (ih hchops.behind_le none)

end Reading

/-! ## Cuts -/

/-- A reader at block offset `o`, with `pending` fragments, is in front of the physical
record. -/
structure Faces (o : ℕ) (pending : Option Slice) (f : Fragment) : Prop where
  offset : o ≤ blockSize
  placed : ∃ isBegin isEnd payload, f = .placed o (fragmentType isBegin isEnd) payload ∧
    (isBegin = false → pending.isSome)
  fits : f.behind ≤ blockSize

/-- A cut after `n` bytes behind block offset `o`: the physical record with its first `i` bytes,
and the reader in front of it. -/
structure Cut (o n o' : ℕ) (pending : Option Slice) (f : Fragment) (i : ℕ) : Prop where
  faces : Faces o' pending f
  inside : i < f.size
  position : (o + n) % blockSize = (o' + i) % blockSize

variable (extend) in
theorem cutAt_append (fs gs : List Fragment) (n : ℕ) : cutAt (fs ++ gs) n =
    if n < (fragmentBytes extend fs).length then cutAt fs n
    else cutAt gs (n - (fragmentBytes extend fs).length) := by
  induction fs generalizing n with
  | nil => simp [fragmentBytes]
  | cons f fs ih =>
    rw [List.cons_append, cutAt, cutAt, ih, length_fragmentBytes_cons]
    by_cases hf : n < f.size
    · rw [if_pos hf, if_pos hf, if_pos (by omega)]
    · rw [if_neg hf, if_neg hf, Nat.sub_sub]
      exact if_congr (by omega) rfl rfl

section Reading

variable (hextend : ∀ c a b, extend (extend c a) b = extend c (a ++ b))
include hextend

/-- **A cut in a record.** The physical records in front of the cut are read and wait for the
rest of the record. -/
theorem Chops.cut {o : ℕ} {isBegin : Bool} {left : Slice} {fs : List Fragment}
    (h : Chops o isBegin left fs) {pending : Option Slice}
    (hpending : isBegin = false → pending.isSome) {n : ℕ}
    (hn : n < (fragmentBytes extend fs).length) :
    ∃ o' pending' f i, cutAt fs n = some (f, i) ∧ Cut o n o' pending' f i ∧
      ∀ more out, Reads extend o' ((f.bytes extend).take i ++ more) pending' out →
        Reads extend o ((fragmentBytes extend fs).take n ++ more) pending out := by
  induction h generalizing pending n with
  | @last o isBegin payload ho hfits =>
    rw [length_fragmentBytes_cons] at hn
    refine ⟨o, pending, _, n, if_pos hn, ⟨⟨ho, ⟨isBegin, true, payload, rfl, hpending⟩, hfits⟩,
      hn, rfl⟩, fun more out hreads => ?_⟩
    rw [fragmentBytes_cons]
    simpa [fragmentBytes] using hreads
  | @more o isBegin payload left fs ho hfills hrest ih =>
    rw [length_fragmentBytes_cons] at hn
    set f := Fragment.placed o (fragmentType isBegin false) payload with hf
    by_cases hin : n < f.size
    · refine ⟨o, pending, f, n, if_pos hin, ⟨⟨ho, ⟨isBegin, false, payload, rfl, hpending⟩,
        hfills.le⟩, hin, rfl⟩, fun more out hreads => ?_⟩
      rw [fragmentBytes_cons, List.take_append_of_le_length (by rw [Fragment.length_bytes]; omega)]
      exact hreads
    · -- the cut is behind this physical record
      have hpending' : false = false →
          (some ((if isBegin then [] else pending.getD []) ++ payload)).isSome := fun _ => rfl
      have hn' : n - f.size < (fragmentBytes extend fs).length := by omega
      obtain ⟨o', pending', g, i, hcut, hplace, hreads⟩ := ih hpending' hn'
      refine ⟨o', pending', g, i, ?_, ⟨hplace.faces, hplace.inside, ?_⟩, fun more out hmore => ?_⟩
      · rw [cutAt, if_neg hin]
        exact hcut
      · have hmod := Nat.add_mod_eq_add_mod_right (n - f.size)
          (behind_placed_mod ho (fragmentType isBegin false) payload)
        rw [hfills, ← hf] at hmod
        rw [← hplace.position, hmod]
        congr 1
        omega
      · rw [fragmentBytes_cons, List.take_append, Fragment.length_bytes,
          List.take_of_length_le (by rw [Fragment.length_bytes]; omega), List.append_assoc]
        refine .goesOn (yields_placed hextend isBegin false payload hfills.le _)
          (fragmentType_code_ne_eof _ _) (Fragment.lt_length_bytes_append _ _)
          (next_fragmentType false hpending _) ?_
        rw [hfills]
        exact hreads more out hmore

/-- **A cut in a log.** The records in front of it survive. -/
theorem records_cut (records : List Slice) (w : Writer) (hw : w.blockOffset ≤ blockSize) (n : ℕ) :
    (cutAt (fragments w.blockOffset records) n = none ∧
      (fragmentBytes extend (fragments w.blockOffset records)).length ≤ n ∧
      w.surviving extend records (w.dest.length + n) = records) ∨
    ∃ o' pending f i, cutAt (fragments w.blockOffset records) n = some (f, i) ∧
      Cut w.blockOffset n o' pending f i ∧
      ∀ more out, Reads extend o' ((f.bytes extend).take i ++ more) pending out →
        Reads extend w.blockOffset
          ((fragmentBytes extend (fragments w.blockOffset records)).take n ++ more) none
          (w.surviving extend records (w.dest.length + n) ++ out) := by
  induction records generalizing w n with
  | nil => exact Or.inl ⟨rfl, Nat.zero_le n, rfl⟩
  | cons record records ih =>
    have hchops := recordFragments_chops hw record
    set fs := recordFragments w.blockOffset record with hfs
    have hadd : w.addRecord extend record =
        ⟨w.dest ++ fragmentBytes extend fs, behind w.blockOffset fs⟩ := addRecord_eq w record
    have hlen : (w.addRecord extend record).dest.length =
        w.dest.length + (fragmentBytes extend fs).length := by
      rw [hadd, List.length_append]
    rw [fragments, ← hfs, cutAt_append extend, fragmentBytes_append, Writer.surviving]
    by_cases hin : n < (fragmentBytes extend fs).length
    · -- the cut is in this record
      have hnone : true = false → (none : Option Slice).isSome := by simp
      obtain ⟨o', pending, f, i, hcut, hplace, hreads⟩ := hchops.cut hextend hnone hin
      refine Or.inr ⟨o', pending, f, i, by rw [if_pos hin, hcut], hplace, ?_⟩
      intro more out hmore
      rw [if_neg (by omega), List.take_append_of_le_length hin.le]
      exact hreads more out hmore
    · -- the record survives
      have hbehind : behind w.blockOffset fs = (w.addRecord extend record).blockOffset := by
        rw [hadd]
      have hn : w.dest.length + n = (w.addRecord extend record).dest.length +
          (n - (fragmentBytes extend fs).length) := by omega
      have hoffset : (w.addRecord extend record).blockOffset ≤ blockSize :=
        hbehind ▸ hchops.behind_le
      rw [if_neg hin, if_pos (by omega), hn, hbehind]
      rcases ih _ hoffset (n - (fragmentBytes extend fs).length) with
        ⟨hcut, hlength, hall⟩ | ⟨o', pending, f, i, hcut, hplace, hreads⟩
      · refine Or.inl ⟨hcut, ?_, by rw [hall]⟩
        rw [List.length_append]
        omega
      · refine Or.inr ⟨o', pending, f, i, hcut, ⟨hplace.faces, hplace.inside, ?_⟩, ?_⟩
        · have hmod := Nat.add_mod_eq_add_mod_right (n - (fragmentBytes extend fs).length)
            (hchops.behind_mod extend)
          rw [← hplace.position, ← hbehind, hmod]
          congr 1
          omega
        · intro more out hmore
          rw [List.take_append, List.take_of_length_le (by omega), List.append_assoc]
          refine hchops.reads hextend (by simp) ?_
          rw [hbehind]
          exact hreads more out hmore

end Reading

/-! ## What is appended behind a cut -/

section Placed

variable {o i : ℕ} {isBegin : Bool} {payload : Slice} {pending : Option Slice}

theorem take_bytes_placed_of_le (t : RecordType) (hi : i ≤ (trailer o).length) :
    ((Fragment.placed o t payload).bytes extend).take i = List.replicate i 0 := by
  rw [Fragment.bytes_placed, List.take_append_of_le_length hi, trailer_eq_replicate,
    List.take_replicate, Nat.min_eq_left hi]

theorem take_bytes_placed (t : RecordType) (q : ℕ) :
    ((Fragment.placed o t payload).bytes extend).take ((trailer o).length + q) =
      trailer o ++ (header extend t payload ++ payload).take q := by
  rw [Fragment.bytes_placed, List.take_length_add_append]

theorem offset_of_cut {q : ℕ} (ho : o ≤ blockSize) (hq : behindTrailer o + q < blockSize) :
    (o + ((trailer o).length + q)) % blockSize = behindTrailer o + q := by
  unfold trailer
  unfold behindTrailer at hq ⊢
  split_ifs at hq ⊢ with htrailer
  · rw [List.length_replicate, show o + (blockSize - o + q) = 0 + q + blockSize by omega,
      Nat.add_mod_right, Nat.mod_eq_of_lt hq]
  · rw [List.length_nil, Nat.zero_add, Nat.mod_eq_of_lt hq]

/-- A header that is cut and filled with zeros gives no record. -/
theorem reads_filled_header {t : RecordType} {q : ℕ} (hq : q < headerSize) (ho : o ≤ blockSize)
    (hheader : o + headerSize ≤ blockSize) (hroom : blockSize - (o + q) < headerSize)
    {more : Slice} {out : List Slice} (hmore : Reads extend 0 more none out) :
    Reads extend o ((header extend t payload ++ payload).take q ++
      List.replicate (blockSize - (o + q)) 0 ++ more) pending out := by
  have hsize : headerSize = 7 := rfl
  set front := (header extend t payload ++ payload).take q with hfront
  have hq' : front.length = q := by
    rw [hfront, List.length_take, List.length_append, length_header]
    omega
  set block := front ++ List.replicate (blockSize - (o + q)) 0 with hdef
  have hblock : block.length = blockSize - o := by
    rw [hdef, List.length_append, List.length_replicate]
    omega
  by_cases hpass : Passes extend block
  · -- the byte of the type is one of the zeros
    have htype : typeAt block = 0 := by
      have hzero : block.getD 6 0 = 0 := by
        rw [hdef, List.getD_append_right _ _ _ _ (by omega), List.getD_replicate]
        omega
      rw [typeAt, hzero]
      rfl
    obtain ⟨hyields, hless⟩ := yields_block (by omega) hblock hpass more
    rw [htype] at hyields
    refine .goesOn hyields (by decide) hless (next_eq_inr pending _ fun t ht => ?_)
      (.behindRecord ho hblock hpass.length (by omega) hmore)
    cases t <;> first | exact absurd rfl ht | decide
  · exact .fails (by omega) hblock hpass hmore

variable (hextend : ∀ c a b, extend (extend c a) b = extend c (a ++ b))
include hextend

/-- **Behind a trailer** nothing is lost. -/
theorem reads_behind_trailer (ho : o ≤ blockSize) (hi : i ≤ (trailer o).length)
    (appended : List Slice) : Reads extend o (List.replicate i 0 ++
      fragmentBytes extend (fragments ((o + i) % blockSize) appended)) pending appended := by
  cases appended with
  | nil =>
    refine .short ?_
    rw [List.length_append, List.length_replicate]
    exact hi.trans_lt (length_trailer_lt o)
  | cons record records =>
    rw [replicate_append_fragmentBytes extend ho hi]
    exact reads_fragments hextend _ ho pending

/-- A payload that is cut and filled with zeros is dropped, unless the checksum matches. -/
theorem reads_filled_payload (isEnd : Bool) {j : ℕ} (hj : j < payload.length)
    (hfits : o + headerSize + payload.length ≤ blockSize)
    (hroom : blockSize - (o + headerSize + j) < headerSize)
    (hpending : isBegin = false → pending.isSome) {more : Slice} {out : List Slice}
    (hmore : ∀ pending, Reads extend 0 more pending out) :
    ∃ out', Reads extend o (header extend (fragmentType isBegin isEnd) payload ++
        (payload.take j ++ List.replicate (blockSize - (o + headerSize + j)) 0) ++ more) pending
        out' ∧ (out' = out ↔ ¬ (isEnd = true ∧ extend (typeCrc extend (fragmentType isBegin isEnd))
          (payload.take j ++ List.replicate (payload.length - j) 0) =
        extend (typeCrc extend (fragmentType isBegin isEnd)) payload)) := by
  have hsize : blockSize = 32768 ∧ headerSize = 7 := ⟨rfl, rfl⟩
  set payload' := payload.take j ++ List.replicate (payload.length - j) 0 with hpayload'
  set t := fragmentType isBegin isEnd with ht
  have hlen' : payload'.length = payload.length := by
    rw [hpayload', List.length_append, List.length_take, List.length_replicate]
    omega
  -- the zeros that complete the payload, and those behind it
  obtain ⟨k, hk⟩ : ∃ k, blockSize - (o + headerSize + j) = payload.length - j + k :=
    Nat.exists_eq_add_of_le (by omega)
  have hzeros : payload.take j ++ List.replicate (blockSize - (o + headerSize + j)) 0 =
      payload' ++ List.replicate k 0 := by
    rw [hk, hpayload', List.append_assoc, List.replicate_append_replicate]
  rw [hzeros]
  set block := header extend t payload ++ (payload' ++ List.replicate k 0) with hdef
  have hblock : block.length = blockSize - o := by
    rw [hdef, List.length_append, List.length_append, length_header, List.length_replicate]
    omega
  have hlen : payload.length < 2 ^ 16 := by omega
  have hpass : Passes extend block ↔ _ :=
    passes_header hextend (fragmentType_ne_zero isBegin isEnd) hlen hlen' (List.replicate k 0)
  by_cases hcrc : extend (typeCrc extend t) payload' = extend (typeCrc extend t) payload
  · obtain ⟨hyields, hless⟩ := yields_block (by omega) hblock (hpass.mpr hcrc) more
    have hlength : lengthAt block = payload.length := lengthAt_header hlen _
    have hfragment : (block.drop headerSize).take payload.length = payload' := by
      rw [hdef, List.drop_left' (length_header _ _), List.take_left' hlen']
    rw [hlength, typeAt_header, hfragment] at hyields
    rw [hlength] at hless
    have hrest : ∀ pending, Reads extend (o + (headerSize + payload.length))
        ((block ++ more).drop (headerSize + payload.length)) pending out :=
      fun pending => .behindRecord (by omega) hblock (by omega) (by omega) (hmore pending)
    have hnext := next_fragmentType isEnd hpending payload'
    by_cases hend : isEnd = true
    · rw [if_pos hend] at hnext
      exact ⟨_, .record hyields (fragmentType_code_ne_eof _ _) hless hnext (hrest none),
        iff_of_false (List.cons_ne_self _ _) fun h => h ⟨hend, hcrc⟩⟩
    · rw [if_neg hend] at hnext
      exact ⟨out, .goesOn hyields (fragmentType_code_ne_eof _ _) hless hnext (hrest _),
        iff_of_true rfl fun h => hend h.1⟩
  · exact ⟨out, .fails (by omega) hblock (fun h => hcrc (hpass.mp h)) (hmore none),
      iff_of_true rfl fun h => hcrc h.2⟩

end Placed

theorem fragmentType_ends (isBegin isEnd : Bool) :
    (fragmentType isBegin isEnd = .full ∨ fragmentType isBegin isEnd = .last) ↔ isEnd = true := by
  cases isBegin <;> cases isEnd <;> decide

section Cuts

variable {o : ℕ} {pending : Option Slice} {f : Fragment} {q : ℕ}

/-- **Where the writer fills the block**, only the record that was cut can be read in addition. -/
theorem Faces.reads_filled (hextend : ∀ c a b, extend (extend c a) b = extend c (a ++ b))
    (h : Faces o pending f) (hq : q < headerSize + f.payload.length)
    (hroom : blockSize - (f.offset + q) < headerSize) {more : Slice} {out : List Slice}
    (hmore : ∀ pending, Reads extend 0 more pending out) :
    ∃ out', Reads extend f.offset ((f.body extend).take q ++
        List.replicate (blockSize - (f.offset + q)) 0 ++ more) pending out' ∧
      (out' = out ↔ ¬ f.Revived extend q) := by
  have hfits : f.offset + headerSize + f.payload.length ≤ blockSize := h.fits
  obtain ⟨isBegin, isEnd, payload, hf, hpending⟩ := h.placed
  have htype : f.type = fragmentType isBegin isEnd := by rw [hf]; rfl
  rcases Nat.lt_or_ge q headerSize with hheader | hpayload
  · exact ⟨out, reads_filled_header hheader (by omega) (by omega) hroom (hmore none),
      iff_of_true rfl fun hrevived => hrevived.1.not_gt hheader⟩
  · obtain ⟨j, rfl⟩ := Nat.exists_eq_add_of_le hpayload
    have hbody : (f.body extend).take (headerSize + j) =
        header extend (fragmentType isBegin isEnd) f.payload ++ f.payload.take j := by
      rw [Fragment.take_body, htype]
    rw [hbody, List.append_assoc (header _ _ _), ← Nat.add_assoc]
    obtain ⟨out', hreads, hiff⟩ := reads_filled_payload hextend isEnd
      (by omega : j < f.payload.length) hfits (by omega) hpending hmore
    refine ⟨out', hreads, hiff.trans (not_congr ?_)⟩
    rw [Fragment.Revived, Nat.add_sub_cancel_left, htype, fragmentType_ends]
    exact ⟨fun h => ⟨hpayload, h⟩, fun h => h.2⟩

/-- The header of an empty record has no byte but the last that is the type of the end of a
record. -/
theorem typeAt_header_full {front : Slice} (hpos : 0 < front.length)
    (hlt : front.length < headerSize) :
    typeAt (front ++ header Crc32c.extend .full []) ≠ RecordType.full.code ∧
      typeAt (front ++ header Crc32c.extend .full []) ≠ RecordType.last.code := by
  have hbytes : header Crc32c.extend .full [] = [5, 43, 40, 67, 0, 0, 1] := by decide +kernel
  have hsize : headerSize = 7 := rfl
  have hall : ∀ k < 6, charToUnsigned ([5, 43, 40, 67, 0, 0, 1].getD k 0) ≠ RecordType.full.code ∧
      charToUnsigned ([5, 43, 40, 67, 0, 0, 1].getD k 0) ≠ RecordType.last.code := by decide
  rw [typeAt, List.getD_append_right _ _ _ _ (by omega), hbytes]
  exact hall _ (by omega)

/-- **Where the writer does not fill the block**, an empty record that is appended is lost. -/
theorem Faces.reads_lost (h : Faces o pending f) (hpos : 0 < q)
    (hq : q < headerSize + f.payload.length) (hroom : headerSize ≤ blockSize - (f.offset + q)) :
    ∃ out, Reads Crc32c.extend f.offset
        ((f.body Crc32c.extend).take q ++ header Crc32c.extend .full []) pending out ∧
      out ≠ [[]] := by
  have hfits : f.offset + headerSize + f.payload.length ≤ blockSize := h.fits
  have hsize : blockSize = 32768 ∧ headerSize = 7 := ⟨rfl, rfl⟩
  set front := (f.body Crc32c.extend).take q with hfront
  have hlen : front.length = q := by
    rw [hfront, List.length_take, Fragment.body, List.length_append, length_header]
    omega
  set rest := front ++ header Crc32c.extend .full [] with hrest
  have hrestLen : rest.length = q + headerSize := by
    rw [hrest, List.length_append, hlen, length_header]
  -- what the reader takes as a header is not the header of an empty record
  have hheader : rest.length < 2 * headerSize + lengthAt rest ∧ ¬ (lengthAt rest = 0 ∧
      (typeAt rest = RecordType.full.code ∨ typeAt rest = RecordType.last.code)) := by
    rcases Nat.lt_or_ge q headerSize with hcut | hcut
    · have htype := typeAt_header_full (by omega : 0 < front.length) (by omega)
      exact ⟨by omega, fun h => h.2.elim htype.1 htype.2⟩
    · obtain ⟨j, rfl⟩ := Nat.exists_eq_add_of_le hcut
      have hlength : lengthAt rest = f.payload.length := by
        rw [hrest, hfront, Fragment.take_body, List.append_assoc]
        exact lengthAt_header (by omega) _
      rw [hlength]
      exact ⟨by omega, fun h => by omega⟩
  obtain ⟨out, hreads, hout⟩ := exists_reads_last Crc32c.extend
    (by omega : headerSize ≤ blockSize - f.offset) (by omega) (by omega) hheader.1 pending
  exact ⟨out, hreads, fun h => hheader.2 (hout h)⟩

variable {n o' i : ℕ}

theorem Cut.reads_nothing (hextend : ∀ c a b, extend (extend c a) b = extend c (a ++ b))
    (h : Cut o n o' pending f i) : Reads extend o' ((f.bytes extend).take i) pending [] := by
  have hfits := h.faces.fits
  have hinside := h.inside
  obtain ⟨isBegin, isEnd, payload, rfl, -⟩ := h.faces.placed
  have hprefix : ((Fragment.placed o' (fragmentType isBegin isEnd) payload).bytes extend).take i <+:
      trailer o' ++ (header extend (fragmentType isBegin isEnd) payload ++ payload) := by
    rw [Fragment.bytes_placed]
    exact List.take_prefix _ _
  have hlt : (((Fragment.placed o' (fragmentType isBegin isEnd) payload).bytes extend).take i).length <
      (trailer o' ++ (header extend (fragmentType isBegin isEnd) payload ++ payload)).length := by
    rw [← Fragment.bytes_placed, List.length_take, Fragment.length_bytes]
    omega
  exact .ends (yields_cut hextend (fragmentType_ne_zero isBegin isEnd) hfits hprefix hlt)

variable (extend) in
/-- The part of a physical record behind its trailer that is left, and the block offset of the
writer. -/
theorem Cut.part (h : Cut o n o' pending f i) (hdirty : f.leftover < i) :
    0 < i - f.leftover ∧ i - f.leftover < headerSize + f.payload.length ∧
      (o' + i) % blockSize = f.offset + (i - f.leftover) ∧
      ∀ rest out, Reads extend f.offset ((f.body extend).take (i - f.leftover) ++ rest) pending out →
        Reads extend o' ((f.bytes extend).take i ++ rest) pending out := by
  have hfits : f.offset + headerSize + f.payload.length ≤ blockSize := h.faces.fits
  have hinside : i < f.leftover + (headerSize + f.payload.length) := h.inside
  have hoffset := h.faces.offset
  obtain ⟨isBegin, isEnd, payload, rfl, -⟩ := h.faces.placed
  set t := fragmentType isBegin isEnd
  obtain ⟨q, rfl⟩ : ∃ q, i = (Fragment.placed o' t payload).leftover + q :=
    Nat.exists_eq_add_of_le hdirty.le
  rw [Nat.add_sub_cancel_left]
  refine ⟨by omega, by omega, offset_of_cut hoffset ?_, fun rest out hreads => ?_⟩
  · show (Fragment.placed o' t payload).offset + q < blockSize
    omega
  · have htake : ((Fragment.placed o' t payload).bytes extend).take
        ((Fragment.placed o' t payload).leftover + q) =
        trailer o' ++ ((Fragment.placed o' t payload).body extend).take q := take_bytes_placed t q
    rw [htake, List.append_assoc]
    exact .behindTrailer hreads

/-- **The cuts behind which nothing is lost.** -/
theorem Cut.reads (hextend : ∀ c a b, extend (extend c a) b = extend c (a ++ b))
    (h : Cut o n o' pending f i) (hcut : i ≤ f.leftover ∨
      blockSize - (o' + i) % blockSize < headerSize ∧ ¬ f.Revived extend (i - f.leftover))
    (appended : List Slice) : Reads extend o' ((f.bytes extend).take i ++
      fragmentBytes extend (fragments ((o' + i) % blockSize) appended)) pending appended := by
  rcases Nat.lt_or_ge f.leftover i with hdirty | hclean
  · obtain ⟨hroom, hrevived⟩ := hcut.resolve_left hdirty.not_ge
    cases appended with
    | nil =>
      have hnothing := h.reads_nothing hextend
      rwa [← List.append_nil ((f.bytes extend).take i)] at hnothing
    | cons record records =>
      obtain ⟨-, hq, hoffset, hreads⟩ := h.part extend hdirty
      rw [hoffset] at hroom ⊢
      obtain ⟨out, hout, hiff⟩ := h.faces.reads_filled hextend hq hroom
        (reads_fragments hextend (record :: records) (Nat.zero_le _))
      rw [hiff.mpr hrevived, List.append_assoc] at hout
      rw [fragmentBytes_fragments_filled hroom]
      exact hreads _ _ hout
  · have hoffset := h.faces.offset
    obtain ⟨isBegin, isEnd, payload, rfl, -⟩ := h.faces.placed
    rw [take_bytes_placed_of_le _ hclean]
    exact reads_behind_trailer hextend hoffset hclean appended

/-- **Behind any other cut an empty record is lost**, or the record that was cut is read. -/
theorem Cut.exists_reads_ne (h : Cut o n o' pending f i)
    (hcut : ¬ (i ≤ f.leftover ∨ blockSize - (o' + i) % blockSize < headerSize ∧
      ¬ f.Revived Crc32c.extend (i - f.leftover))) :
    ∃ out, Reads Crc32c.extend o' ((f.bytes Crc32c.extend).take i ++
        fragmentBytes Crc32c.extend (fragments ((o' + i) % blockSize) [[]])) pending out ∧
      out ≠ [[]] := by
  have hdirty : f.leftover < i := Nat.lt_of_not_le fun h => hcut (Or.inl h)
  obtain ⟨hpos, hq, hoffset, hreads⟩ := h.part Crc32c.extend hdirty
  rw [hoffset] at hcut ⊢
  rcases Nat.lt_or_ge (blockSize - (f.offset + (i - f.leftover))) headerSize with hroom | hroom
  · have hrevived : f.Revived Crc32c.extend (i - f.leftover) :=
      not_not.mp fun hnot => hcut (Or.inr ⟨hroom, hnot⟩)
    obtain ⟨out, hout, hiff⟩ := h.faces.reads_filled Crc32c.extend_extend hq hroom
      (reads_fragments Crc32c.extend_extend [[]] (Nat.zero_le _))
    rw [List.append_assoc] at hout
    rw [fragmentBytes_fragments_filled hroom]
    exact ⟨out, hreads _ _ hout, fun heq => hiff.mp heq hrevived⟩
  · obtain ⟨out, hout, hne⟩ := h.faces.reads_lost hpos hq hroom
    rw [fragmentBytes_fragments_empty hroom]
    exact ⟨out, hreads _ _ hout, hne⟩

end Cuts

/-! ## Whole logs -/

theorem lt_of_cutAt {fs : List Fragment} {n : ℕ} {p : Fragment × ℕ} (h : cutAt fs n = some p) :
    n < (fragmentBytes extend fs).length := by
  induction fs generalizing n with
  | nil => exact nomatch h
  | cons f fs ih =>
    rw [length_fragmentBytes_cons]
    rw [cutAt] at h
    split_ifs at h with hin
    · omega
    · have := ih h
      omega

theorem surviving_new (records : List Slice) (n : ℕ) : Writer.new.surviving extend records n =
    (⟨[], blockSize⟩ : Writer).surviving extend records n := by
  cases records with
  | nil => rfl
  | cons record records => rfl

theorem new_addRecords_dest (records : List Slice) : (Writer.new.addRecords extend records).dest =
    fragmentBytes extend (fragments blockSize records) := by
  rw [addRecords_eq, ← fragments_zero]
  rfl

theorem reuseLog_addRecords (contents : Slice) (appended : List Slice) :
    ((reuseLog contents).addRecords extend appended).dest =
      contents ++ fragmentBytes extend (fragments (contents.length % blockSize) appended) := by
  rw [addRecords_eq]
  rfl

theorem recovers_of_reads {records appended : List Slice} {n : ℕ} {out : List Slice}
    (h : Reads extend blockSize ((fragmentBytes extend (fragments blockSize records)).take n ++
      fragmentBytes extend (fragments
        (((fragmentBytes extend (fragments blockSize records)).take n).length % blockSize) appended))
      none out) : Recovers extend records n appended ↔
      out = (⟨[], blockSize⟩ : Writer).surviving extend records n ++ appended := by
  unfold Recovers recordsOf reusedLog
  rw [new_addRecords_dest, reuseLog_addRecords, h.readAll_eq, surviving_new, Option.some_inj]

section Whole

variable (hextend : ∀ c a b, extend (extend c a) b = extend c (a ++ b))
include hextend

theorem reads_whole {records : List Slice} {n : ℕ}
    (hn : (fragmentBytes extend (fragments blockSize records)).length ≤ n) (appended : List Slice) :
    Reads extend blockSize ((fragmentBytes extend (fragments blockSize records)).take n ++
      fragmentBytes extend (fragments
        (((fragmentBytes extend (fragments blockSize records)).take n).length % blockSize) appended))
      none (records ++ appended) := by
  obtain ⟨hle, hmod⟩ := behind_fragments extend le_rfl records
  rw [Nat.add_mod_left] at hmod
  rw [List.take_of_length_le hn, ← hmod]
  cases appended with
  | nil =>
    rw [fragments, List.append_nil]
    exact (List.append_nil _).symm ▸ reads_fragments hextend records le_rfl none
  | cons record appended =>
    have happend := replicate_append_fragmentBytes extend hle (Nat.zero_le _) record appended
    rw [Nat.add_zero, List.replicate_zero, List.nil_append] at happend
    rw [happend, ← fragmentBytes_append, ← fragments_append]
    exact reads_fragments hextend _ le_rfl none

/-- The records that survive are those that a reader of the file returns before anything is
appended. -/
theorem readAll_surviving (records : List Slice) (n : ℕ) : Recovers extend records n [] := by
  rcases records_cut hextend records ⟨[], blockSize⟩ le_rfl n with
    ⟨-, hlen, hall⟩ | ⟨o', pending, f, i, -, hplace, hreads⟩
  · rw [List.length_nil, Nat.zero_add] at hall
    rw [recovers_of_reads (reads_whole hextend hlen []), hall]
  · have hnothing := hplace.reads_nothing hextend
    rw [← List.append_nil (List.take i _)] at hnothing
    have htop := hreads _ _ hnothing
    rw [List.length_nil, Nat.zero_add] at htop
    exact (recovers_of_reads htop).mpr rfl

end Whole

theorem readAll_surviving_two : Recovers Crc32c.extend [[1, 2, 3], [4]] 12 [] :=
  readAll_surviving Crc32c.extend_extend _ _

/-- **When a log can be reused after a crash.** The records that survived and all records that
are appended are read back, whatever they are, if and only if the cut is one of those that
`Resumable` describes. -/
theorem recovers_iff (records : List Slice) (n : ℕ) :
    (∀ appended, Recovers Crc32c.extend records n appended) ↔
      Resumable Crc32c.extend records n := by
  unfold Resumable
  rw [fragments_zero]
  rcases records_cut Crc32c.extend_extend records ⟨[], blockSize⟩ le_rfl n with
    ⟨hcut, hlen, hall⟩ | ⟨o', pending, f, i, hcut, hplace, hreads⟩
  · rw [List.length_nil, Nat.zero_add] at hall
    rw [hcut]
    refine iff_of_true (fun appended => ?_) trivial
    rw [recovers_of_reads (reads_whole Crc32c.extend_extend hlen appended), hall]
  · have hposition : (o' + i) % blockSize = n % blockSize := by
      rw [← hplace.position, Nat.add_mod_left]
    have hoffset : (o' + i) % blockSize =
        ((fragmentBytes Crc32c.extend (fragments blockSize records)).take n).length % blockSize := by
      rw [hposition, List.length_take, Nat.min_eq_left (lt_of_cutAt hcut).le]
    rw [List.length_nil, Nat.zero_add] at hreads
    rw [hcut]
    dsimp only
    rw [← hposition]
    constructor
    · intro hrecovers
      by_contra hnot
      obtain ⟨out, hout, hne⟩ := hplace.exists_reads_ne hnot
      have htop := hreads _ _ hout
      rw [hoffset] at htop
      exact hne (List.append_cancel_left ((recovers_of_reads htop).mp (hrecovers [[]])))
    · intro hok appended
      have htop := hreads _ _ (hplace.reads Crc32c.extend_extend hok appended)
      rw [hoffset] at htop
      exact (recovers_of_reads htop).mpr rfl

example : Resumable Crc32c.extend [[1, 2, 3], [4]] 10 ∧
    ¬ Resumable Crc32c.extend [[1, 2, 3]] 9 := by
  decide +kernel

/-- A record that was cut in its payload takes two records with it that are appended. -/
theorem recovers_cutPayload :
    recordsOf Crc32c.extend (reusedLog Crc32c.extend [[1, 2, 3]] 9 [[4], [5]]) = some [] ∧
      ¬ Recovers Crc32c.extend [[1, 2, 3]] 9 [[4], [5]] := by
  decide +kernel

end McfKv.Log
