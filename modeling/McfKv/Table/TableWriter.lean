import McfKv.Table.TableBuilder

/-!
# Writing a table to a file that can fail (`table/table_builder.cc`)

`McfKv.Table.TableBuilder` follows a builder whose file operations succeed. A `Writer` is a builder
together with its `status`: each `Append`, `Flush`, `Sync` and `Close` sets the status, and once it
is not `OK` the functions do nothing more to the file. The results of the operations are given as a
function of the number of operations made before, so a failure can be at any point.

Two facts about a writer are used later.

* `build_of_ok` — when all operations succeed, a writer is the builder of the other module.
* `build_indexQueue` — the queue for the index that `Finish` passes on does not depend on what fails
  in `Finish`, and holds the keys of the entries added before the first failure.
-/

namespace McfKv

/-- The results of the file operations of a builder, in the order in which they are made. -/
abbrev FileOps := ℕ → Status

/-- `struct TableBuilder::Rep` with its status; `opsMade` counts the file operations. -/
structure Writer where
  table : TableBuilder
  status : Status
  opsMade : ℕ

namespace Writer

/-- `TableBuilder::TableBuilder`. -/
def new (o : TableOptions) : Writer := ⟨TableBuilder.new o, .ok, 0⟩

/-- One operation on the file: its result is the status of the builder. -/
def fileOp (ops : FileOps) (w : Writer) : Writer :=
  { w with status := ops w.opsMade, opsMade := w.opsMade + 1 }

/-- `TableBuilder::WriteRawBlock`. The block and its trailer are appended one after the other, and
the offset moves only when both are written. -/
def writeRawBlock (ops : FileOps) (w : Writer) (contents : Slice) (type : CompressionType) :
    Writer × BlockHandle :=
  let handle : BlockHandle := ⟨w.table.offset, contents.length⟩
  let w := w.fileOp ops
  if w.status.isOk then
    let w := w.fileOp ops
    if w.status.isOk then ({ w with table := (w.table.writeRawBlock contents type).1 }, handle)
    else (w, handle)
  else (w, handle)

/-- The bytes that `TableBuilder::WriteBlock` stores for a block, and their type. -/
def blockContents (o : TableOptions) (raw : Slice) : Slice × CompressionType :=
  match o.compression with
  | .noCompression => (raw, .noCompression)
  | .snappyCompression =>
    match o.compress raw with
    | some compressed =>
      if compressed.length < raw.length - raw.length / 8 then
        (compressed, .snappyCompression)
      else (raw, .noCompression)
    | none => (raw, .noCompression)

/-- `TableBuilder::WriteBlock` for a finished block. -/
def writeBlock (o : TableOptions) (ops : FileOps) (w : Writer) (raw : Slice) :
    Writer × BlockHandle :=
  w.writeRawBlock ops (blockContents o raw).1 (blockContents o raw).2

/-- `TableBuilder::Flush`. -/
def flush (o : TableOptions) (ops : FileOps) (w : Writer) : Writer :=
  if !w.status.isOk then w
  else if w.table.dataBlock.empty then w
  else
    let (w, handle) := w.writeBlock o ops w.table.dataBlock.finish
    let w := { w with table := { w.table with dataBlock := .new, pendingHandle := handle } }
    let w :=
      if w.status.isOk then
        fileOp ops { w with table := { w.table with pendingIndexEntry := true } }
      else w
    { w with
      table := { w.table with
        filterBlock := match o.filterPolicy with
          | some policy => w.table.filterBlock.map fun b => b.startBlock policy w.table.offset
          | none => w.table.filterBlock } }

/-- `TableBuilder::Add` for the table with number `number`. -/
def add (o : TableOptions) (ops : FileOps) (number : ℕ) (w : Writer) (key value : Slice) : Writer :=
  if !w.status.isOk then w
  else
    let w := { w with table := w.table.insert o number key value }
    if o.blockSize ≤ w.table.dataBlock.currentSizeEstimate then w.flush o ops else w

/-- The filter block of `Finish`, and the metaindex block with its handle. -/
def writeFilter (o : TableOptions) (ops : FileOps) (w : Writer) : Writer × BlockBuilder :=
  match o.filterPolicy, w.table.filterBlock with
  | some policy, some filterBlock =>
    if w.status.isOk then
      let written := w.writeRawBlock ops (filterBlock.finish policy) .noCompression
      (written.1, BlockBuilder.new.add o.blockRestartInterval
        (TableBuilder.filterKey policy.name) written.2.encodeTo)
    else (w, .new)
  | _, _ => (w, .new)

/-- The index block of `Finish`. -/
def writeIndex (o : TableOptions) (ops : FileOps) (w : Writer) : Writer × BlockHandle :=
  let t := w.table
  let t :=
    if t.pendingIndexEntry then t.addIndexEntry (internalSuccessor t.lastKey) else t
  writeBlock o ops { w with table := t } t.indexBlock.finish

/-- The footer of `Finish`. -/
def writeFooter (ops : FileOps) (w : Writer) (footer : Footer) : Writer :=
  let w := w.fileOp ops
  if w.status.isOk then
    { w with
      table := { w.table with
        file := w.table.file ++ footer.encodeTo
        offset := w.table.offset + footer.encodeTo.length } }
  else w

/-- `TableBuilder::Finish` up to the call of `Index::AddQueue`, which is made in every case: the
queue that it gets is `table.indexQueue`, and `status` is what `Finish` returns. -/
def finish (o : TableOptions) (ops : FileOps) (w : Writer) : Writer :=
  let filtered := (w.flush o ops).writeFilter o ops
  if !filtered.1.status.isOk then filtered.1
  else
    let metaindex := filtered.1.writeBlock o ops filtered.2.finish
    if !metaindex.1.status.isOk then metaindex.1
    else
      let index := metaindex.1.writeIndex o ops
      if !index.1.status.isOk then index.1
      else
        let w := index.1.writeFooter ops ⟨metaindex.2, index.2⟩
        if !w.status.isOk then w
        else
          -- `Sync`, and then `Close`
          let w := w.fileOp ops
          if !w.status.isOk then w else w.fileOp ops

/-- The builder after some calls of `Add`. -/
def addAll (o : TableOptions) (ops : FileOps) (number : ℕ) (w : Writer)
    (entries : List (Slice × Slice)) : Writer :=
  entries.foldl (fun w e => w.add o ops number e.1 e.2) w

/-- A table is written: all calls of `Add`, and `Finish`. -/
def build (o : TableOptions) (ops : FileOps) (number : ℕ) (entries : List (Slice × Slice)) :
    Writer :=
  ((new o).addAll o ops number entries).finish o ops

/-! ## Writing without failures -/

/-- The builder that a writer has become, as long as nothing has failed. -/
structure Is (w : Writer) (t : TableBuilder) : Prop where
  status : w.status.isOk
  table : w.table = t

section NoFailure

variable {o : TableOptions} {ops : FileOps} {w : Writer} {t : TableBuilder}

theorem Is.fileOp (h : w.Is t) (hops : ∀ i, (ops i).isOk) : (w.fileOp ops).Is t :=
  ⟨hops _, h.table⟩

theorem Is.writeRawBlock (h : w.Is t) (hops : ∀ i, (ops i).isOk) (contents : Slice)
    (type : CompressionType) :
    (w.writeRawBlock ops contents type).1.Is (t.writeRawBlock contents type).1 ∧
      (w.writeRawBlock ops contents type).2 = (t.writeRawBlock contents type).2 := by
  obtain rfl := h.table
  unfold Writer.writeRawBlock
  dsimp only
  rw [if_pos (h.fileOp hops).status, if_pos ((h.fileOp hops).fileOp hops).status]
  exact ⟨⟨hops _, rfl⟩, rfl⟩

theorem writeBlock_eq (o : TableOptions) (t : TableBuilder) (raw : Slice) :
    t.writeBlock o raw = t.writeRawBlock (blockContents o raw).1 (blockContents o raw).2 := by
  unfold TableBuilder.writeBlock blockContents
  cases o.compression with
  | noCompression => rfl
  | snappyCompression =>
    dsimp only
    cases o.compress raw with
    | none => rfl
    | some compressed =>
      dsimp only
      split_ifs <;> rfl

section

variable (h : w.Is t) (hops : ∀ i, (ops i).isOk)

include h hops

theorem Is.writeBlock (raw : Slice) : (w.writeBlock o ops raw).1.Is (t.writeBlock o raw).1 ∧
    (w.writeBlock o ops raw).2 = (t.writeBlock o raw).2 := by
  rw [writeBlock_eq]
  exact h.writeRawBlock hops _ _

theorem Is.flush : (w.flush o ops).Is (t.flush o) := by
  unfold Writer.flush TableBuilder.flush
  rw [if_neg (by simp [h.status]), h.table]
  split_ifs with hempty
  · exact h
  · obtain ⟨hwritten, hhandle⟩ := h.writeBlock (o := o) hops t.dataBlock.finish
    dsimp only
    rw [if_pos hwritten.status]
    refine ⟨hops _, ?_⟩
    dsimp only [Writer.fileOp]
    rewrite [hwritten.table, hhandle]
    cases o.filterPolicy <;> rfl

theorem Is.add (number : ℕ) (key value : Slice) :
    (w.add o ops number key value).Is (t.add o number key value) := by
  have hinsert : Writer.Is { w with table := w.table.insert o number key value }
      (t.insert o number key value) := ⟨h.status, by rw [h.table]⟩
  unfold Writer.add TableBuilder.add
  rw [if_neg (by simp [h.status])]
  dsimp only
  rw [h.table]
  split_ifs
  · exact (h.table ▸ hinsert).flush hops
  · exact h.table ▸ hinsert

theorem Is.addAll (number : ℕ) (entries : List (Slice × Slice)) :
    (w.addAll o ops number entries).Is (t.addAll o number entries) := by
  induction entries generalizing w t with
  | nil => exact h
  | cons e entries ih => exact ih (h.add hops number e.1 e.2)

theorem Is.writeFilter : (w.writeFilter o ops).1.Is (t.writeFilter o).1 ∧
    (w.writeFilter o ops).2 = (t.writeFilter o).2 := by
  unfold Writer.writeFilter TableBuilder.writeFilter
  rw [h.table]
  cases o.filterPolicy with
  | none => exact ⟨h, rfl⟩
  | some policy =>
    cases t.filterBlock with
    | none => exact ⟨h, rfl⟩
    | some filterBlock =>
      obtain ⟨hwritten, hhandle⟩ :=
        h.writeRawBlock hops (filterBlock.finish policy) .noCompression
      dsimp only
      rw [if_pos h.status, hhandle]
      exact ⟨hwritten, rfl⟩

theorem Is.writeIndex {t' : TableBuilder} (ht' : t' =
      if t.pendingIndexEntry then t.addIndexEntry (internalSuccessor t.lastKey) else t) :
    (w.writeIndex o ops).1.Is (t'.writeBlock o t'.indexBlock.finish).1 ∧
      (w.writeIndex o ops).2 = (t'.writeBlock o t'.indexBlock.finish).2 := by
  unfold Writer.writeIndex
  dsimp only
  rw [h.table, ← ht']
  have hpending : Writer.Is { w with table := t' } t' := ⟨h.status, rfl⟩
  exact hpending.writeBlock hops t'.indexBlock.finish

theorem Is.writeFooter (footer : Footer) : (w.writeFooter ops footer).Is { t with
        file := t.file ++ footer.encodeTo
        offset := t.offset + footer.encodeTo.length } := by
  unfold Writer.writeFooter
  dsimp only
  rw [if_pos (h.fileOp hops).status]
  exact ⟨hops _, by rw [(h.fileOp hops).table]⟩

/-- **Without failures, `Finish` writes the table** of the other module. -/
theorem Is.finish : (w.finish o ops).Is (t.finish o) := by
  obtain ⟨hfilter, hmeta⟩ := (h.flush (o := o) hops).writeFilter (o := o) hops
  obtain ⟨hmetaindex, hmetahandle⟩ :=
    hfilter.writeBlock (o := o) hops ((t.flush o).writeFilter o).2.finish
  obtain ⟨hindex, hindexhandle⟩ := hmetaindex.writeIndex (o := o) hops rfl
  have hfooter := fun footer => hindex.writeFooter hops footer
  unfold Writer.finish
  dsimp only
  rw [hmeta, if_neg (by simp [hfilter.status]), if_neg (by simp [hmetaindex.status]),
    if_neg (by simp [hindex.status]), if_neg (by simp [(hfooter _).status]),
    if_neg (by simp [((hfooter _).fileOp hops).status]), hmetahandle, hindexhandle]
  exact ((hfooter _).fileOp hops).fileOp hops

end

/-- If no file operation fails, the writer is the builder without errors. -/
theorem build_of_ok (o : TableOptions) {ops : FileOps} (hops : ∀ i, (ops i).isOk) (number : ℕ)
    (entries : List (Slice × Slice)) :
    (build o ops number entries).Is (((TableBuilder.new o).addAll o number entries).finish o) :=
  ((⟨rfl, rfl⟩ : (new o).Is (TableBuilder.new o)).addAll hops number entries).finish hops

/-- Three entries in three data blocks. -/
theorem build_of_ok_threeBlocks :
    let o : TableOptions := ⟨1, 16, none, .noCompression, some, some, true⟩
    ((TableBuilder.new o).addAll o 5 [([1], [2]), ([3], [4]), ([5], [6])]).pendingIndexEntry ∧
      (build o (fun _ => .ok) 5 [([1], [2]), ([3], [4]), ([5], [6])]).Is
        (((TableBuilder.new o).addAll o 5 [([1], [2]), ([3], [4]), ([5], [6])]).finish o) :=
  ⟨by decide +kernel, build_of_ok _ (fun _ => rfl) 5 _⟩

end NoFailure

/-! ## The queue for the index -/

section IndexQueue

variable (o : TableOptions) (ops : FileOps) (w : Writer)

@[simp] theorem writeRawBlock_indexQueue (contents : Slice) (type : CompressionType) :
    (w.writeRawBlock ops contents type).1.table.indexQueue = w.table.indexQueue := by
  unfold writeRawBlock
  dsimp only
  split_ifs <;> rfl

@[simp] theorem writeBlock_indexQueue (raw : Slice) :
    (w.writeBlock o ops raw).1.table.indexQueue = w.table.indexQueue :=
  writeRawBlock_indexQueue ops w _ _

@[simp] theorem flush_indexQueue : (w.flush o ops).table.indexQueue = w.table.indexQueue := by
  unfold flush
  split_ifs with hbad hempty
  · rfl
  · rfl
  · dsimp only
    split_ifs
    · exact writeBlock_indexQueue o ops w _
    · exact writeBlock_indexQueue o ops w _

@[simp] theorem writeFilter_indexQueue :
    (w.writeFilter o ops).1.table.indexQueue = w.table.indexQueue := by
  unfold writeFilter
  cases o.filterPolicy with
  | none => rfl
  | some policy =>
    cases w.table.filterBlock with
    | none => rfl
    | some filterBlock =>
      dsimp only
      split_ifs
      · exact writeRawBlock_indexQueue ops w _ _
      · rfl

@[simp] theorem writeIndex_indexQueue :
    (w.writeIndex o ops).1.table.indexQueue = w.table.indexQueue := by
  unfold writeIndex
  dsimp only
  rw [writeBlock_indexQueue]
  dsimp only
  split_ifs <;> rfl

@[simp] theorem writeFooter_indexQueue (footer : Footer) :
    (w.writeFooter ops footer).table.indexQueue = w.table.indexQueue := by
  unfold writeFooter
  dsimp only
  split_ifs <;> rfl

/-- `Finish` passes the queue on as it finds it, whatever fails in it. -/
@[simp] theorem finish_indexQueue : (w.finish o ops).table.indexQueue = w.table.indexQueue := by
  unfold finish
  dsimp only
  split_ifs <;> simp [fileOp]

/-- The item of an entry in the queue. -/
def queued (number : ℕ) (e : Slice × Slice) : ℕ × ℕ :=
  (Coding.fastAtoi (extractUserKey e.1), number)

theorem add_indexQueue (number : ℕ) (e : Slice × Slice) :
    (w.add o ops number e.1 e.2).table.indexQueue =
      if w.status.isOk then w.table.indexQueue ++ [queued number e] else w.table.indexQueue := by
  have hinsert : (w.table.insert o number e.1 e.2).indexQueue =
      w.table.indexQueue ++ [queued number e] := by
    unfold TableBuilder.insert queued
    dsimp only
    split_ifs <;> rfl
  unfold add
  by_cases hok : w.status.isOk
  · rw [if_neg (by simp [hok]), if_pos hok]
    dsimp only
    split_ifs
    · rw [flush_indexQueue, hinsert]
    · exact hinsert
  · rw [if_pos (by simpa using hok), if_neg hok]

theorem addAll_of_not_ok (hbad : ¬ w.status.isOk) (number : ℕ) (entries : List (Slice × Slice)) :
    w.addAll o ops number entries = w := by
  induction entries with
  | nil => rfl
  | cons e entries ih =>
    have hadd : w.add o ops number e.1 e.2 = w := by
      unfold add
      rw [if_pos (by simpa using hbad)]
    unfold addAll at ih ⊢
    rw [List.foldl_cons, hadd]
    exact ih

theorem addAll_indexQueue (number : ℕ) (entries : List (Slice × Slice)) :
    ∃ p, p <+: entries ∧ (w.status.isOk → entries ≠ [] → p ≠ []) ∧
      (w.addAll o ops number entries).table.indexQueue =
        w.table.indexQueue ++ p.map (queued number) := by
  induction entries generalizing w with
  | nil => exact ⟨[], List.prefix_refl _, fun _ h => absurd rfl h, by simp [addAll]⟩
  | cons e entries ih =>
    by_cases hok : w.status.isOk
    · obtain ⟨p, hp, -, hqueue⟩ := ih (w.add o ops number e.1 e.2)
      refine ⟨e :: p, List.cons_prefix_cons.mpr ⟨rfl, hp⟩, fun _ _ => List.cons_ne_nil _ _, ?_⟩
      rw [add_indexQueue, if_pos hok, List.append_assoc] at hqueue
      exact hqueue
    · refine ⟨[], List.nil_prefix, fun h => absurd h hok, ?_⟩
      rw [addAll_of_not_ok o ops w hok, List.map_nil, List.append_nil]

end IndexQueue

/-- **What `Finish` hands to the index**: the keys of some first entries, at least one if there is
an entry at all, whatever has failed. -/
theorem build_indexQueue (o : TableOptions) (ops : FileOps) (number : ℕ)
    (entries : List (Slice × Slice)) : ∃ p, p <+: entries ∧ (entries ≠ [] → p ≠ []) ∧
      (build o ops number entries).table.indexQueue = p.map (queued number) := by
  obtain ⟨p, hp, hne, hqueue⟩ := addAll_indexQueue o ops (new o) number entries
  refine ⟨p, hp, hne rfl, ?_⟩
  rw [build, finish_indexQueue, hqueue]
  exact List.nil_append _

/-! ## The number of entries -/

section NumEntries

variable (o : TableOptions) (ops : FileOps) (w : Writer)

theorem flush_numEntries : (w.flush o ops).table.numEntries = w.table.numEntries := by
  have hwrite : ∀ raw, (w.writeBlock o ops raw).1.table.numEntries = w.table.numEntries := by
    intro raw
    unfold writeBlock writeRawBlock
    dsimp only
    split_ifs <;> rfl
  unfold flush
  split_ifs
  · rfl
  · rfl
  · dsimp only
    split_ifs <;> exact hwrite _

theorem add_numEntries (hok : w.status.isOk) (number : ℕ) (key value : Slice) :
    (w.add o ops number key value).table.numEntries = w.table.numEntries + 1 := by
  have hinsert : (w.table.insert o number key value).numEntries = w.table.numEntries + 1 := by
    unfold TableBuilder.insert TableBuilder.addIndexEntry
    dsimp only
    split_ifs <;> rfl
  unfold add
  rw [if_neg (by simp [hok])]
  dsimp only
  split_ifs
  · rw [flush_numEntries]
    exact hinsert
  · exact hinsert

theorem addAll_numEntries (number : ℕ) (entries : List (Slice × Slice))
    (hok : (w.addAll o ops number entries).status.isOk) :
    (w.addAll o ops number entries).table.numEntries = w.table.numEntries + entries.length := by
  induction entries generalizing w with
  | nil => rfl
  | cons e entries ih =>
    by_cases hw : w.status.isOk
    · have hrest := ih (w.add o ops number e.1 e.2) hok
      rw [add_numEntries o ops w hw] at hrest
      rw [List.length_cons, Nat.add_comm entries.length 1, ← Nat.add_assoc]
      exact hrest
    · rw [addAll_of_not_ok o ops w hw] at hok
      exact absurd hok hw

theorem finish_of_not_ok (hbad : ¬ w.status.isOk) : (w.finish o ops).status = w.status := by
  have hflush : w.flush o ops = w := by
    unfold flush
    rw [if_pos (by simpa using hbad)]
  have hfilter : (w.writeFilter o ops).1 = w := by
    unfold writeFilter
    split
    · rw [if_neg hbad]
    · rfl
  unfold finish
  dsimp only
  rw [hflush, hfilter, if_pos (by simpa using hbad)]

end NumEntries

end Writer

end McfKv
