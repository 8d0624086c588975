import McfKv.Db.Separator
import McfKv.Table.Block
import McfKv.Table.FilterBlock
import McfKv.Table.Format

/-!
# Writing a table (`table/table_builder.cc`)

A `TableBuilder` collects entries in a data block and writes the block when it is large enough.
The index entry of a block is written when the first key of the next block is known, with a
short key between the two blocks. `Finish` writes the last data block, the filter block, the
metaindex block, the index block and the footer.

The writes to the file succeed. `blocks` is the history of the blocks that were written; it is
not in the source.

The result is `TableBuilder.Built`, which says what the builder has written for the entries it
was given: the data blocks, one index entry for each data block but the last, and the keys that
are in the filters.
-/

namespace McfKv

open Coding

/-- The options that the builder and the reader read. `compress` and `uncompress` stand for the
Snappy library. -/
structure TableOptions where
  blockSize : ℕ
  blockRestartInterval : ℕ
  filterPolicy : Option FilterPolicy
  compression : CompressionType
  compress : Slice → Option Slice
  uncompress : Slice → Option Slice
  paranoidChecks : Bool

/-- Large blocks, no filter and no compression. -/
def plainOptions : TableOptions where
  blockSize := 4096
  blockRestartInterval := 16
  filterPolicy := none
  compression := .noCompression
  compress := fun _ => none
  uncompress := fun _ => none
  paranoidChecks := false

/-- `struct TableBuilder::Rep`. -/
structure TableBuilder where
  file : Slice
  offset : ℕ
  dataBlock : BlockBuilder
  indexBlock : BlockBuilder
  lastKey : Slice
  numEntries : ℕ
  indexQueue : List (ℕ × ℕ)
  filterBlock : Option FilterBlockBuilder
  pendingIndexEntry : Bool
  pendingHandle : BlockHandle
  blocks : List Slice

namespace TableBuilder

/-- `TableBuilder::TableBuilder`. -/
def new (o : TableOptions) : TableBuilder where
  file := []
  offset := 0
  dataBlock := .new
  indexBlock := .new
  lastKey := []
  numEntries := 0
  indexQueue := []
  filterBlock := o.filterPolicy.map fun policy => FilterBlockBuilder.new.startBlock policy 0
  pendingIndexEntry := false
  pendingHandle := ⟨2 ^ 64 - 1, 2 ^ 64 - 1⟩
  blocks := []

/-- `TableBuilder::WriteRawBlock`: the handle of the block goes to the caller. -/
def writeRawBlock (t : TableBuilder) (contents : Slice) (type : CompressionType) :
    TableBuilder × BlockHandle :=
  ({ t with
      file := t.file ++ rawBlock contents type
      offset := t.offset + (contents.length + blockTrailerSize)
      blocks := t.blocks ++ [contents] },
    ⟨t.offset, contents.length⟩)

/-- `TableBuilder::WriteBlock` for a finished block. -/
def writeBlock (o : TableOptions) (t : TableBuilder) (raw : Slice) : TableBuilder × BlockHandle :=
  match o.compression with
  | .noCompression => t.writeRawBlock raw .noCompression
  | .snappyCompression =>
    match o.compress raw with
    | some compressed =>
      if compressed.length < raw.length - raw.length / 8 then
        t.writeRawBlock compressed .snappyCompression
      else t.writeRawBlock raw .noCompression
    | none => t.writeRawBlock raw .noCompression

/-- `TableBuilder::Flush`. -/
def flush (o : TableOptions) (t : TableBuilder) : TableBuilder :=
  if t.dataBlock.empty then t
  else
    let (t, handle) := t.writeBlock o t.dataBlock.finish
    { t with
      dataBlock := .new
      pendingIndexEntry := true
      pendingHandle := handle
      filterBlock := match o.filterPolicy with
        | some policy => t.filterBlock.map fun b => b.startBlock policy t.offset
        | none => t.filterBlock }

/-- The entry of the index block for the last data block. -/
def addIndexEntry (t : TableBuilder) (key : Slice) : TableBuilder :=
  { t with
    indexBlock := t.indexBlock.add 1 key t.pendingHandle.encodeTo
    pendingIndexEntry := false
    lastKey := key }

/-- `TableBuilder::Add` for the table with number `number`, up to the test of the size. -/
def insert (o : TableOptions) (number : ℕ) (t : TableBuilder) (key value : Slice) : TableBuilder :=
  let t := if t.pendingIndexEntry then t.addIndexEntry (internalSeparator t.lastKey key) else t
  { t with
    filterBlock := t.filterBlock.map fun b => b.addKey key
    lastKey := key
    numEntries := t.numEntries + 1
    dataBlock := t.dataBlock.add o.blockRestartInterval key value
    indexQueue := t.indexQueue ++ [(fastAtoi (extractUserKey key), number)] }

/-- `TableBuilder::Add`. -/
def add (o : TableOptions) (number : ℕ) (t : TableBuilder) (key value : Slice) : TableBuilder :=
  let t := t.insert o number key value
  if o.blockSize ≤ t.dataBlock.currentSizeEstimate then t.flush o else t

/-- The key of the filter block in the metaindex block: `filter.` and the name of the policy. -/
def filterKey (name : Slice) : Slice := [102, 105, 108, 116, 101, 114, 46] ++ name

/-- The filter block of `Finish`, and the metaindex block with its handle. -/
def writeFilter (o : TableOptions) (t : TableBuilder) : TableBuilder × BlockBuilder :=
  match o.filterPolicy, t.filterBlock with
  | some policy, some filterBlock =>
    let written := t.writeRawBlock (filterBlock.finish policy) .noCompression
    (written.1,
      BlockBuilder.new.add o.blockRestartInterval (filterKey policy.name) written.2.encodeTo)
  | _, _ => (t, .new)

/-- `TableBuilder::Finish`: the bytes of the file are complete after it. -/
def finish (o : TableOptions) (t : TableBuilder) : TableBuilder :=
  let filtered := (t.flush o).writeFilter o
  -- metaindex block
  let metaindex := filtered.1.writeBlock o filtered.2.finish
  let t := metaindex.1
  -- index block
  let t := if t.pendingIndexEntry then t.addIndexEntry (internalSuccessor t.lastKey) else t
  let index := t.writeBlock o t.indexBlock.finish
  let footer : Footer := ⟨metaindex.2, index.2⟩
  { index.1 with
    file := index.1.file ++ footer.encodeTo
    offset := index.1.offset + footer.encodeTo.length }

/-- The builder after some entries. -/
def addAll (o : TableOptions) (number : ℕ) (t : TableBuilder) (entries : List (Slice × Slice)) :
    TableBuilder :=
  entries.foldl (fun t e => t.add o number e.1 e.2) t

/-! ### The number of entries -/

theorem flush_numEntries (o : TableOptions) (t : TableBuilder) :
    (t.flush o).numEntries = t.numEntries := by
  unfold flush writeBlock writeRawBlock
  split_ifs
  · rfl
  · cases o.compression with
    | noCompression => rfl
    | snappyCompression =>
      cases o.compress t.dataBlock.finish with
      | none => rfl
      | some compressed =>
        dsimp only
        split_ifs <;> rfl

theorem add_numEntries (o : TableOptions) (number : ℕ) (t : TableBuilder) (key value : Slice) :
    (t.add o number key value).numEntries = t.numEntries + 1 := by
  have hinsert : (t.insert o number key value).numEntries = t.numEntries + 1 := by
    unfold insert addIndexEntry
    dsimp only
    split_ifs <;> rfl
  unfold add
  dsimp only
  split_ifs
  · rw [flush_numEntries, hinsert]
  · exact hinsert

theorem addAll_numEntries (o : TableOptions) (number : ℕ) (entries : List (Slice × Slice)) :
    ∀ t : TableBuilder, (t.addAll o number entries).numEntries = t.numEntries + entries.length := by
  induction entries with
  | nil => exact fun _ => rfl
  | cons e entries ih =>
    intro t
    have hrest := ih (t.add o number e.1 e.2)
    rw [add_numEntries] at hrest
    rw [List.length_cons, Nat.add_comm entries.length 1, ← Nat.add_assoc]
    exact hrest

end TableBuilder

/-! ## What has been written -/

/-- A data block: its entries, and where it is in the file. -/
structure DataBlock where
  entries : List (Slice × Slice)
  offset : ℕ

/-- The key of the first entry. -/
def firstKeyOf (entries : List (Slice × Slice)) : Slice := (entries.head?.map Prod.fst).getD []

namespace DataBlock

/-- The bytes of a data block. -/
def contents (o : TableOptions) (d : DataBlock) : Slice :=
  (BlockBuilder.new.addAll o.blockRestartInterval d.entries).finish

/-- The handle of a data block. -/
def handle (o : TableOptions) (d : DataBlock) : BlockHandle := ⟨d.offset, (d.contents o).length⟩

/-- The keys of a data block, with the offset under which they are in the filters. -/
def added (d : DataBlock) : List (ℕ × Slice) := d.entries.map fun e => (d.offset, e.1)

end DataBlock

/-- The index entries of some blocks, when `next` is the first key behind them. -/
inductive Indexes (o : TableOptions) : List (Slice × Slice) → List DataBlock → Slice → Prop
  | nil (next : Slice) : Indexes o [] [] next
  | snoc {index : List (Slice × Slice)} {done : List DataBlock} {d : DataBlock} (next : Slice)
      (h : Indexes o index done (firstKeyOf d.entries)) :
      Indexes o (index ++ [(internalSeparator (lastKeyOf [] d.entries) next, (d.handle o).encodeTo)])
        (done ++ [d]) next

namespace TableBuilder

variable {o : TableOptions} {t : TableBuilder} {done : List DataBlock}
  {cur index : List (Slice × Slice)}

/-- **What the builder has written**: the blocks `done`, with the entries `cur` in the data block
and the entries `index` in the index block. -/
structure Built (o : TableOptions) (t : TableBuilder) (done : List DataBlock)
    (cur index : List (Slice × Slice)) : Prop where
  dataBlock : t.dataBlock = BlockBuilder.new.addAll o.blockRestartInterval cur
  indexBlock : t.indexBlock = BlockBuilder.new.addAll 1 index
  offset : t.offset = t.file.length
  written : ∀ d ∈ done, d.entries ≠ [] ∧ d.contents o ∈ t.blocks ∧
    Located t.file (d.contents o) d.offset
  lastKey : cur ≠ [] → t.lastKey = lastKeyOf [] cur
  filter : ∀ policy, o.filterPolicy = some policy → ∃ b, t.filterBlock = some b ∧
    b.Filed policy (t.offset / 2 ^ filterBaseLg)
      (done.flatMap DataBlock.added ++ cur.map fun e => (t.offset, e.1))
  /-- while an index entry is pending, the data block is empty -/
  index : (t.pendingIndexEntry = true ∧ cur = [] ∧ ∃ before last, done = before ++ [last] ∧
      t.pendingHandle = last.handle o ∧ t.lastKey = lastKeyOf [] last.entries ∧
        Indexes o index before (firstKeyOf last.entries)) ∨
    (t.pendingIndexEntry = false ∧ (cur = [] → done = []) ∧ Indexes o index done (firstKeyOf cur))

theorem new_built (o : TableOptions) : Built o (new o) [] [] [] where
  dataBlock := rfl
  indexBlock := rfl
  offset := rfl
  written := by simp
  lastKey := by simp
  filter := fun policy hpolicy =>
    ⟨_, by simp [new, hpolicy], (FilterBlockBuilder.filed_new policy).startBlock (Nat.zero_le _)⟩
  index := .inr ⟨rfl, fun _ => rfl, .nil _⟩

theorem addAll_append (interval : ℕ) (b : BlockBuilder) (entries : List (Slice × Slice))
    (key value : Slice) : b.addAll interval (entries ++ [(key, value)]) =
      (b.addAll interval entries).add interval key value := by
  simp [BlockBuilder.addAll]

theorem empty_addAll_iff (interval : ℕ) (entries : List (Slice × Slice)) :
    (BlockBuilder.new.addAll interval entries).empty = true ↔ entries = [] := by
  obtain ⟨pieces, hstores⟩ := BlockBuilder.addAll_stores interval entries
  have hlength := hstores.all.length_eq
  unfold BlockBuilder.empty
  rw [List.isEmpty_iff, hstores.buffer, List.flatten_eq_nil_iff]
  constructor
  · intro hnil
    cases pieces with
    | nil => exact List.length_eq_zero_iff.mp hlength.symm
    | cons piece =>
      exact absurd (hnil piece List.mem_cons_self) (hstores.all.ne_nil piece List.mem_cons_self)
  · rintro rfl
    rw [List.length_eq_zero_iff.mp hlength]
    simp

theorem writeBlock_noCompression (ho : o.compression = .noCompression) (t : TableBuilder)
    (raw : Slice) : t.writeBlock o raw = t.writeRawBlock raw .noCompression := by
  unfold writeBlock
  rw [ho]

/-- **`Flush`** moves the entries of the data block to a block of the file. -/
theorem Built.flush (h : Built o t done cur index) (ho : o.compression = .noCompression) :
    ∃ done', Built o (t.flush o) done' [] index ∧
      done'.flatMap DataBlock.entries = done.flatMap DataBlock.entries ++ cur := by
  by_cases hcur : cur = []
  · subst hcur
    refine ⟨done, ?_, by simp⟩
    have hempty : t.dataBlock.empty = true := by
      rw [h.dataBlock]
      exact (empty_addAll_iff _ _).mpr rfl
    unfold TableBuilder.flush
    rw [if_pos hempty]
    exact h
  · have hempty : ¬ t.dataBlock.empty = true := by
      rw [h.dataBlock, empty_addAll_iff]
      exact hcur
    obtain ⟨d, hd⟩ : ∃ d : DataBlock, d = ⟨cur, t.offset⟩ := ⟨_, rfl⟩
    have hcontents : t.dataBlock.finish = d.contents o := by
      rw [h.dataBlock, hd]
      rfl
    have hindex : Indexes o index done (firstKeyOf cur) := by
      rcases h.index with ⟨-, hnil, -⟩ | ⟨-, -, hindex⟩
      · exact absurd hnil hcur
      · exact hindex
    refine ⟨done ++ [d], ?_, by simp [hd]⟩
    unfold TableBuilder.flush
    rw [if_neg hempty, writeBlock_noCompression ho, hcontents]
    exact
      { dataBlock := rfl
        indexBlock := h.indexBlock
        offset := by simp [writeRawBlock, h.offset]
        written := by
          intro d' hd'
          rcases List.mem_append.mp hd' with hd' | hd'
          · obtain ⟨hne, hmem, hlocated⟩ := h.written d' hd'
            exact ⟨hne, List.mem_append_left _ hmem, hlocated.append _⟩
          · obtain rfl := List.mem_singleton.mp hd'
            have hlocated := located_append t.file (d'.contents o) []
            refine ⟨by simpa [hd] using hcur, by simp [writeRawBlock], ?_⟩
            rw [List.append_nil, ← h.offset] at hlocated
            simpa [writeRawBlock, hd] using hlocated
        lastKey := by simp
        filter := by
          intro policy hpolicy
          obtain ⟨b, hb, hfiled⟩ := h.filter policy hpolicy
          refine ⟨b.startBlock policy (t.offset + ((d.contents o).length + blockTrailerSize)),
            by simp [writeRawBlock, hpolicy, hb], ?_⟩
          have hstart := hfiled.startBlock (Nat.div_le_div_right (Nat.le_add_right t.offset
            ((d.contents o).length + blockTrailerSize)))
          simpa [writeRawBlock, hd, DataBlock.added] using hstart
        index := by
          refine .inl ⟨rfl, rfl, done, d, rfl, ?_, ?_, ?_⟩
          · simp [writeRawBlock, DataBlock.handle, hd]
          · simpa [writeRawBlock, hd] using h.lastKey hcur
          · simpa [hd] using hindex }

theorem indexes_nil {next : Slice} (h : Indexes o index [] next) : index = [] := by
  generalize hdone : ([] : List DataBlock) = done at h
  cases h with
  | nil => rfl
  | snoc => simp at hdone

theorem Built.insert (h : Built o t done cur index) (number : ℕ) (key value : Slice) :
    ∃ index', Built o (t.insert o number key value) done (cur ++ [(key, value)]) index' := by
  obtain ⟨t', ht'⟩ : ∃ t', t' = if t.pendingIndexEntry then
      t.addIndexEntry (internalSeparator t.lastKey key) else t := ⟨_, rfl⟩
  have hinsert : t.insert o number key value = { t' with
        filterBlock := t'.filterBlock.map fun b => b.addKey key
        lastKey := key
        numEntries := t'.numEntries + 1
        dataBlock := t'.dataBlock.add o.blockRestartInterval key value
        indexQueue := t'.indexQueue ++ [(fastAtoi (extractUserKey key), number)] } := by
    rw [ht']
    rfl
  have hsame : t'.file = t.file ∧ t'.offset = t.offset ∧ t'.dataBlock = t.dataBlock ∧
      t'.filterBlock = t.filterBlock ∧ t'.blocks = t.blocks ∧ t'.pendingIndexEntry = false := by
    rw [ht']
    split_ifs with hpending
    · exact ⟨rfl, rfl, rfl, rfl, rfl, rfl⟩
    · exact ⟨rfl, rfl, rfl, rfl, rfl, by simpa using hpending⟩
  obtain ⟨hfile, hoffset, hdata, hfilter, hblocks, hpending'⟩ := hsame
  obtain ⟨index', hindexBlock, hindex⟩ : ∃ index', t'.indexBlock = BlockBuilder.new.addAll 1 index' ∧
      Indexes o index' done (firstKeyOf (cur ++ [(key, value)])) := by
    rcases h.index with ⟨hpending, rfl, before, last, rfl, hhandle, hlast, hindex⟩ |
      ⟨hpending, hdone, hindex⟩
    · refine ⟨index ++ [(internalSeparator t.lastKey key, (last.handle o).encodeTo)], ?_, ?_⟩
      · rw [ht', if_pos hpending, addAll_append, ← h.indexBlock, ← hhandle]
        rfl
      · rw [hlast]
        exact .snoc key hindex
    · refine ⟨index, by rw [ht', if_neg (by simp [hpending]), h.indexBlock], ?_⟩
      cases cur with
      | nil =>
        obtain rfl := hdone rfl
        obtain rfl := indexes_nil hindex
        exact .nil _
      | cons e cur => exact hindex
  refine ⟨index', ?_⟩
  rw [hinsert]
  exact
    { dataBlock := by
        show t'.dataBlock.add o.blockRestartInterval key value = _
        rw [addAll_append, ← h.dataBlock, hdata]
      indexBlock := hindexBlock
      offset := by
        show t'.offset = t'.file.length
        rw [hoffset, hfile, h.offset]
      written := by
        show ∀ d ∈ done, d.entries ≠ [] ∧ d.contents o ∈ t'.blocks ∧
          Located t'.file (d.contents o) d.offset
        rw [hblocks, hfile]
        exact h.written
      lastKey := fun _ => by simp [lastKeyOf]
      filter := by
        intro policy hpolicy
        obtain ⟨b, hb, hfiled⟩ := h.filter policy hpolicy
        refine ⟨b.addKey key, by simp [hfilter, hb], ?_⟩
        have hadd := hfiled.addKey key
        rw [← hoffset] at hadd
        simpa using hadd
      index := .inr ⟨hpending', by simp, hindex⟩ }

section

variable (h : Built o t done cur index) (ho : o.compression = .noCompression) (number : ℕ)

include h ho number

/-- **`Add`** adds the entry, and writes the data block when it is large enough. -/
theorem Built.add (key value : Slice) :
    ∃ done' cur' index', Built o (t.add o number key value) done' cur' index' ∧
      done'.flatMap DataBlock.entries ++ cur' =
        done.flatMap DataBlock.entries ++ cur ++ [(key, value)] := by
  obtain ⟨index', hinsert⟩ := h.insert number key value
  unfold TableBuilder.add
  dsimp only
  split_ifs
  · obtain ⟨done', hflush, hentries⟩ := hinsert.flush ho
    exact ⟨done', [], index', hflush, by rw [hentries]; simp⟩
  · exact ⟨done, cur ++ [(key, value)], index', hinsert, by simp⟩

theorem Built.addAll (entries : List (Slice × Slice)) :
    ∃ done' cur' index', Built o (t.addAll o number entries) done' cur' index' ∧
      done'.flatMap DataBlock.entries ++ cur' =
        done.flatMap DataBlock.entries ++ cur ++ entries := by
  induction entries generalizing t done cur index with
  | nil => exact ⟨done, cur, index, h, by simp⟩
  | cons e entries ih =>
    obtain ⟨done', cur', index', hadd, hentries⟩ := h.add ho number e.1 e.2
    obtain ⟨done'', cur'', index'', hrest, hentries'⟩ := ih hadd
    exact ⟨done'', cur'', index'', hrest, by rw [hentries', hentries]; simp⟩

/-! ## The finished file -/

end

/-- The index entries of a finished table. -/
def FinalIndex (o : TableOptions) (done : List DataBlock) (index : List (Slice × Slice)) : Prop :=
  (done = [] ∧ index = []) ∨ ∃ before last entries, done = before ++ [last] ∧
    Indexes o entries before (firstKeyOf last.entries) ∧
      index = entries ++ [(internalSuccessor (lastKeyOf [] last.entries), (last.handle o).encodeTo)]

/-- A block in the file, among those that were written. -/
def HasBlock (t : TableBuilder) (contents : Slice) (handle : BlockHandle) : Prop :=
  contents ∈ t.blocks ∧ Located t.file contents handle.offset ∧ handle.size = contents.length

/-- The filter block, if there is a policy, has its entry in the metaindex block. -/
structure HasFilter (o : TableOptions) (t : TableBuilder) (done : List DataBlock)
    (metaindex : List (Slice × Slice)) : Prop where
  noFilter : o.filterPolicy = none → metaindex = []
  filter : ∀ policy, o.filterPolicy = some policy → ∃ (b : FilterBlockBuilder) (offset : ℕ)
    (handle : BlockHandle),
    b.Filed policy (offset / 2 ^ filterBaseLg) (done.flatMap DataBlock.added) ∧
      t.HasBlock (b.finish policy) handle ∧
      metaindex = [(filterKey policy.name, handle.encodeTo)]

/-- **A finished table**: data blocks, an index block, a metaindex block, a filter block if there
is a policy, and a footer. -/
structure Complete (o : TableOptions) (t : TableBuilder) (done : List DataBlock)
    (index metaindex : List (Slice × Slice)) (footer : Footer) : Prop extends
    HasFilter o t done metaindex where
  data : ∀ d ∈ done, d.entries ≠ [] ∧ t.HasBlock (d.contents o) (d.handle o)
  finalIndex : FinalIndex o done index
  indexBlock : t.HasBlock (BlockBuilder.new.addAll 1 index).finish footer.indexHandle
  metaindexBlock : t.HasBlock (BlockBuilder.new.addAll o.blockRestartInterval metaindex).finish
    footer.metaindexHandle
  footer : ∃ body, t.file = body ++ footer.encodeTo

/-- **The limits of the format**: every block is smaller than `2^32` bytes, and the file is
smaller than `2^64` bytes. -/
structure Fits (t : TableBuilder) : Prop where
  blocks : ∀ contents ∈ t.blocks, contents.length < 2 ^ 32
  file : t.file.length < 2 ^ 64

theorem HasBlock.handle_fits {contents : Slice} {handle : BlockHandle}
    (h : t.HasBlock contents handle) (hfile : t.file.length < 2 ^ 64) : handle.Fits := by
  have hle := h.2.1.offset_le
  unfold BlockHandle.Fits
  rw [h.2.2]
  omega

theorem HasBlock.readBlock {contents : Slice} {handle : BlockHandle}
    (h : t.HasBlock contents handle) (uncompress : Slice → Option Slice) (verifyChecksums : Bool) :
    McfKv.readBlock uncompress verifyChecksums t.file handle = .ok contents := by
  have hread := h.2.1.readBlock uncompress verifyChecksums
  rw [← h.2.2] at hread
  exact hread

theorem HasBlock.writeRawBlock {contents : Slice} {handle : BlockHandle}
    (h : t.HasBlock contents handle) (contents' : Slice) (type : CompressionType) :
    (t.writeRawBlock contents' type).1.HasBlock contents handle :=
  ⟨List.mem_append_left _ h.1, h.2.1.append _, h.2.2⟩

theorem HasBlock.append {t' : TableBuilder} {contents : Slice} {handle : BlockHandle}
    (h : t.HasBlock contents handle) (hblocks : t'.blocks = t.blocks) (more : Slice)
    (hfile : t'.file = t.file ++ more) : t'.HasBlock contents handle :=
  ⟨hblocks ▸ h.1, hfile ▸ h.2.1.append more, h.2.2⟩

theorem writeRawBlock_hasBlock (hoffset : t.offset = t.file.length) (contents : Slice) :
    (t.writeRawBlock contents .noCompression).1.HasBlock contents
      (t.writeRawBlock contents .noCompression).2 := by
  refine ⟨by simp [TableBuilder.writeRawBlock], ?_, rfl⟩
  have hlocated := located_append t.file contents []
  rw [List.append_nil, ← hoffset] at hlocated
  exact hlocated

theorem offset_writeRawBlock (hoffset : t.offset = t.file.length) (contents : Slice)
    (type : CompressionType) : (t.writeRawBlock contents type).1.offset =
      (t.writeRawBlock contents type).1.file.length := by
  simp [TableBuilder.writeRawBlock, hoffset]

theorem finalIndex_of_built (h : Built o t done [] index) : ∃ index', FinalIndex o done index' ∧
    (if t.pendingIndexEntry then t.addIndexEntry (internalSuccessor t.lastKey) else t).indexBlock =
      BlockBuilder.new.addAll 1 index' := by
  rcases h.index with ⟨hpending, -, before, last, rfl, hhandle, hlast, hindex⟩ |
    ⟨hpending, hdone, hindex⟩
  · refine ⟨_, .inr ⟨before, last, index, rfl, hindex, rfl⟩, ?_⟩
    rw [if_pos hpending, addAll_append, ← h.indexBlock, ← hhandle, hlast]
    rfl
  · obtain rfl := hdone rfl
    obtain rfl := indexes_nil hindex
    exact ⟨[], .inl ⟨rfl, rfl⟩, by rw [if_neg (by simp [hpending]), h.indexBlock]⟩

/-- **The filter block.** Blocks and index entries stay as they are. -/
structure FilterWritten (o : TableOptions) (t t' : TableBuilder) (done : List DataBlock)
    (metaindex : List (Slice × Slice)) : Prop extends HasFilter o t' done metaindex where
  written : t.writeFilter o = (t', BlockBuilder.new.addAll o.blockRestartInterval metaindex)
  keep : ∀ contents handle, t.HasBlock contents handle → t'.HasBlock contents handle
  offset : t'.offset = t'.file.length
  index : t'.pendingIndexEntry = t.pendingIndexEntry ∧ t'.lastKey = t.lastKey ∧
    t'.indexBlock = t.indexBlock ∧ t'.pendingHandle = t.pendingHandle

theorem Built.filterWritten (h : Built o t done [] index) :
    ∃ t' metaindex, FilterWritten o t t' done metaindex := by
  cases hpol : o.filterPolicy with
  | none =>
    refine ⟨t, [], ⟨fun _ => rfl, by simp [hpol]⟩, ?_, fun _ _ h => h, h.offset, rfl, rfl, rfl, rfl⟩
    unfold writeFilter
    rw [hpol]
    rfl
  | some policy =>
    obtain ⟨b, hb, hfiled⟩ := h.filter policy hpol
    refine ⟨(t.writeRawBlock (b.finish policy) .noCompression).1, [(filterKey policy.name,
        (t.writeRawBlock (b.finish policy) .noCompression).2.encodeTo)], ⟨by simp [hpol], ?_⟩, ?_,
      fun _ _ h => h.writeRawBlock _ _, offset_writeRawBlock h.offset _ _, rfl, rfl, rfl, rfl⟩
    · intro policy' heq
      obtain rfl := Option.some.inj (hpol.symm.trans heq)
      refine ⟨b, t.offset, _, ?_, writeRawBlock_hasBlock h.offset _, rfl⟩
      simpa using hfiled
    · unfold writeFilter
      rw [hpol, hb]
      rfl

theorem Built.complete (h : Built o t done [] index) (ho : o.compression = .noCompression)
    (hflush : t.flush o = t) :
    ∃ index' metaindex footer, Complete o (t.finish o) done index' metaindex footer := by
  obtain ⟨index', hfinal, hindexBlock⟩ := finalIndex_of_built h
  obtain ⟨t₁, metaindex, hfilter⟩ := h.filterWritten
  obtain ⟨hpending₁, hlastKey₁, hindexBlock₁, hhandle₁⟩ := hfilter.index
  -- the metaindex block
  obtain ⟨w₂, hw₂⟩ : ∃ w₂, w₂ = t₁.writeRawBlock
      (BlockBuilder.new.addAll o.blockRestartInterval metaindex).finish .noCompression := ⟨_, rfl⟩
  have hmeta := writeRawBlock_hasBlock hfilter.offset
    (BlockBuilder.new.addAll o.blockRestartInterval metaindex).finish
  have hoffset₂ := offset_writeRawBlock hfilter.offset
    (BlockBuilder.new.addAll o.blockRestartInterval metaindex).finish .noCompression
  rw [← hw₂] at hmeta hoffset₂
  -- the index block
  obtain ⟨t₃, ht₃⟩ : ∃ t₃, t₃ = if w₂.1.pendingIndexEntry then
      w₂.1.addIndexEntry (internalSuccessor w₂.1.lastKey) else w₂.1 := ⟨_, rfl⟩
  have hsame₃ : t₃.blocks = w₂.1.blocks ∧ t₃.file = w₂.1.file ∧ t₃.offset = w₂.1.offset := by
    rw [ht₃]
    split_ifs <;> exact ⟨rfl, rfl, rfl⟩
  obtain ⟨hblocks₃, hfile₃, hoffset₃⟩ := hsame₃
  have hindex₃ : t₃.indexBlock = BlockBuilder.new.addAll 1 index' := by
    have hfields : w₂.1.pendingIndexEntry = t.pendingIndexEntry ∧ w₂.1.lastKey = t.lastKey ∧
        w₂.1.indexBlock = t.indexBlock ∧ w₂.1.pendingHandle = t.pendingHandle := by
      rw [hw₂]
      exact ⟨hpending₁, hlastKey₁, hindexBlock₁, hhandle₁⟩
    obtain ⟨hpending₂, hlastKey₂, hindexBlock₂, hhandle₂⟩ := hfields
    rw [← hindexBlock, ht₃, hpending₂]
    split_ifs
    · simp only [addIndexEntry, hindexBlock₂, hhandle₂, hlastKey₂]
    · exact hindexBlock₂
  obtain ⟨w₄, hw₄⟩ : ∃ w₄, w₄ = t₃.writeRawBlock (BlockBuilder.new.addAll 1 index').finish
      .noCompression := ⟨_, rfl⟩
  have hindexHas := writeRawBlock_hasBlock (hoffset₃.trans (hoffset₂.trans (by rw [hfile₃])))
    (BlockBuilder.new.addAll 1 index').finish
  rw [← hw₄] at hindexHas
  have hfinish : t.finish o = { w₄.1 with
      file := w₄.1.file ++ (⟨w₂.2, w₄.2⟩ : Footer).encodeTo
      offset := w₄.1.offset + (⟨w₂.2, w₄.2⟩ : Footer).encodeTo.length } := by
    unfold TableBuilder.finish
    dsimp only
    simp only [writeBlock_noCompression ho]
    rw [hflush, hfilter.written]
    dsimp only
    rw [← hw₂, ← ht₃, hindex₃, ← hw₄]
  -- blocks that were there before the metaindex block stay
  have hkeep₂ : ∀ contents handle, w₂.1.HasBlock contents handle →
      (t.finish o).HasBlock contents handle := by
    intro contents handle hhas
    have h₃ : t₃.HasBlock contents handle := hhas.append hblocks₃ [] (by rw [hfile₃]; simp)
    have h₄ : w₄.1.HasBlock contents handle := hw₄ ▸ h₃.writeRawBlock _ _
    exact h₄.append (by rw [hfinish]) _ (by rw [hfinish])
  have hkeep₁ : ∀ contents handle, t₁.HasBlock contents handle →
      (t.finish o).HasBlock contents handle := by
    intro contents handle hhas
    exact hkeep₂ contents handle (hw₂ ▸ hhas.writeRawBlock _ _)
  refine ⟨index', metaindex, ⟨w₂.2, w₄.2⟩, ?_⟩
  exact
    { data := by
        intro d hd
        obtain ⟨hne, hmem, hlocated⟩ := h.written d hd
        exact ⟨hne, hkeep₁ _ _ (hfilter.keep _ _ ⟨hmem, hlocated, rfl⟩)⟩
      finalIndex := hfinal
      indexBlock := hindexHas.append (by rw [hfinish]) _ (by rw [hfinish])
      metaindexBlock := hkeep₂ _ _ hmeta
      noFilter := hfilter.noFilter
      filter := by
        intro policy hpol
        obtain ⟨b, offset, handle, hfiled, hhas, hentries⟩ := hfilter.filter policy hpol
        exact ⟨b, offset, handle, hfiled, hkeep₁ _ _ hhas, hentries⟩
      footer := ⟨w₄.1.file, by rw [hfinish]⟩ }

theorem flush_flush (o : TableOptions) (t : TableBuilder) : (t.flush o).flush o = t.flush o := by
  unfold flush
  by_cases hempty : t.dataBlock.empty
  · simp [hempty]
  · rw [if_neg hempty, if_pos]
    rfl

/-- **The file of some entries** is a finished table of blocks with these entries. -/
theorem finish_complete (ho : o.compression = .noCompression) (number : ℕ)
    (entries : List (Slice × Slice)) : ∃ done index metaindex footer,
      Complete o (((new o).addAll o number entries).finish o) done index metaindex footer ∧
        done.flatMap DataBlock.entries = entries := by
  obtain ⟨done, cur, index, hbuilt, hentries⟩ := (new_built o).addAll ho number entries
  obtain ⟨done', hflush, hentries'⟩ := hbuilt.flush ho
  obtain ⟨index', metaindex, footer, hcomplete⟩ := hflush.complete ho (flush_flush o _)
  refine ⟨done', index', metaindex, footer, ?_, by rw [hentries', hentries]; rfl⟩
  have hfinish : (((new o).addAll o number entries).flush o).finish o =
      ((new o).addAll o number entries).finish o := by
    unfold finish
    rw [flush_flush o]
  exact hfinish ▸ hcomplete

end TableBuilder

end McfKv
