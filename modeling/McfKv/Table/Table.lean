import McfKv.Db.Table
import McfKv.Table.BlockCursor
import McfKv.Table.TableBuilder

/-!
# Reading a table (`table/table.cc`)

`Open` reads the footer, the index block and the filter block. `InternalGet` looks for the first
index entry that is not less than the lookup key, asks the filter, and searches the data block of
that index entry.

`internalGet_seek` says what a lookup finds in a finished table. It is not always the first
entry of the table that is not less than the lookup key: between two blocks, the index entry may
be greater than the lookup key while all entries of its block are less. What is lost then has
another user key, because a separator that is not a key of the table is less than every version
of the next user key. `internalGet_finish` is the result for the versions of a user key.
-/

namespace McfKv

open Coding

/-- `struct Table::Rep`. -/
structure Table where
  file : Slice
  indexBlock : Block
  filter : Option FilterBlockReader

namespace Table

/-- `Table::ReadFilter`. -/
def readFilter (o : TableOptions) (file filterHandleValue : Slice) : Option FilterBlockReader :=
  match BlockHandle.decodeFrom filterHandleValue with
  | .error _ => none
  | .ok (handle, _) =>
    match readBlock o.uncompress o.paranoidChecks file handle with
    | .error _ => none
    | .ok data => some (FilterBlockReader.new data)

/-- `Table::ReadMeta`. Errors are not propagated. -/
def readMeta (o : TableOptions) (file : Slice) (footer : Footer) : Option FilterBlockReader :=
  match o.filterPolicy with
  | none => none
  | some policy =>
    match readBlock o.uncompress o.paranoidChecks file footer.metaindexHandle with
    | .error _ => none
    | .ok contents =>
      let key := TableBuilder.filterKey policy.name
      match ((Block.new contents).seek compareSlices key).1 with
      | some (found, value) => if found = key then readFilter o file value else none
      | none => none

/-- `Table::Open`. -/
def openTable (o : TableOptions) (file : Slice) : Except Status Table :=
  if file.length < Footer.encodedLength then
    .error (.corruption "file is too short to be an sstable" "")
  else
    match Footer.decodeFrom (file.drop (file.length - Footer.encodedLength)) with
    | .error s => .error s
    | .ok footer =>
      match readBlock o.uncompress o.paranoidChecks file footer.indexHandle with
      | .error s => .error s
      | .ok contents => .ok ⟨file, Block.new contents, readMeta o file footer⟩

/-- `Table::BlockReader` and `Seek`. -/
def seekBlock (o : TableOptions) (t : Table) (verifyChecksums : Bool) (indexValue k : Slice) :
    Option (Slice × Slice) × Status :=
  match BlockHandle.decodeFrom indexValue with
  | .error s => (none, s)
  | .ok (handle, _) =>
    match readBlock o.uncompress verifyChecksums t.file handle with
    | .error s => (none, s)
    | .ok contents => (Block.new contents).seek internalKeyCompare k

/-- The filter says that the key is not in the block. -/
def filteredOut (o : TableOptions) (t : Table) (handleValue k : Slice) : Bool :=
  match o.filterPolicy, t.filter, BlockHandle.decodeFrom handleValue with
  | some policy, some filter, .ok (handle, _) => !filter.keyMayMatch policy handle.offset k
  | _, _, _ => false

/-- `Table::InternalGet`: what it passes to `saver`, and the status. -/
def internalGet (o : TableOptions) (t : Table) (verifyChecksums : Bool) (k : Slice) :
    Option (Slice × Slice) × Status :=
  let index := t.indexBlock.seek internalKeyCompare k
  match index.1 with
  | none => (none, index.2)
  | some (_, handleValue) =>
    if t.filteredOut o handleValue k then (none, index.2)
    else
      let block := t.seekBlock o verifyChecksums handleValue k
      (block.1, if block.2.isOk then index.2 else block.2)

/-! ## Opening a finished table -/

open TableBuilder

variable {o : TableOptions} {b : TableBuilder} {done : List DataBlock}
  {index metaindex : List (Slice × Slice)} {footer : Footer}

variable {entries : List (Slice × Slice)} {e : Slice × Slice} {next k value rest : Slice}
  {d : DataBlock} {ps : List (Slice × DataBlock)} {t : TableBuilder}

theorem seek_addAll {interval : ℕ}
    (hsize : (BlockBuilder.new.addAll interval entries).finish.length < 2 ^ 32)
    (cmp : Slice → Slice → Ordering) (target : Slice)
    (hsorted : entries.Pairwise fun x y => cmp y.1 target = .lt → cmp x.1 target = .lt) :
    (Block.new (BlockBuilder.new.addAll interval entries).finish).seek cmp target =
      (entries.find? fun e => cmp e.1 target ≠ .lt, .ok) := by
  obtain ⟨pieces, hstores⟩ := BlockBuilder.addAll_stores interval entries
  exact Block.seek_finish ⟨hstores, hsize⟩ cmp target hsorted

theorem decodeFrom_encodeTo_nil {handle : BlockHandle} (h : handle.Fits) :
    BlockHandle.decodeFrom handle.encodeTo = .ok (handle, []) := by
  simpa using BlockHandle.decodeFrom_encodeTo h []

theorem readMeta_complete (h : Complete o b done index metaindex footer) (hfits : b.Fits)
    {policy : FilterPolicy} (hpolicy : o.filterPolicy = some policy) :
    ∃ (fb : FilterBlockBuilder) (offset : ℕ),
      fb.Filed policy (offset / 2 ^ filterBaseLg) (done.flatMap DataBlock.added) ∧
        (fb.finish policy).length < 2 ^ 32 ∧
          readMeta o b.file footer = some (FilterBlockReader.new (fb.finish policy)) := by
  obtain ⟨fb, offset, handle, hfiled, hhas, rfl⟩ := h.filter policy hpolicy
  refine ⟨fb, offset, hfiled, hfits.blocks _ hhas.1, ?_⟩
  have hself : compareSlices (filterKey policy.name) (filterKey policy.name) = .eq :=
    (compareSlices_eq_iff _ _).mpr rfl
  have hseek := seek_addAll (hfits.blocks _ h.metaindexBlock.1) compareSlices
    (filterKey policy.name) (List.pairwise_singleton _ _)
  unfold readMeta
  rw [hpolicy]
  dsimp only
  rw [h.metaindexBlock.readBlock]
  dsimp only
  rw [hseek]
  simp only [List.find?_cons, hself, ne_eq, reduceCtorEq, not_false_eq_true, decide_true, if_true]
  unfold readFilter
  rw [decodeFrom_encodeTo_nil (hhas.handle_fits hfits.file)]
  dsimp only
  rw [hhas.readBlock]

/-- **`Open` reads a finished table.** -/
theorem openTable_complete (h : Complete o b done index metaindex footer)
    (hfile : b.file.length < 2 ^ 64) :
    openTable o b.file = .ok ⟨b.file, Block.new (BlockBuilder.new.addAll 1 index).finish,
      readMeta o b.file footer⟩ := by
  obtain ⟨body, hbody⟩ := h.footer
  have hlen : b.file.length = body.length + Footer.encodedLength := by
    rw [hbody, List.length_append, Footer.length_encodeTo]
  have hdrop : b.file.drop (b.file.length - Footer.encodedLength) = footer.encodeTo := by
    rw [hlen, Nat.add_sub_cancel, hbody, List.drop_left]
  unfold openTable
  rw [if_neg (by omega), hdrop, Footer.decodeFrom_encodeTo
    (h.metaindexBlock.handle_fits hfile) (h.indexBlock.handle_fits hfile)]
  dsimp only
  rw [h.indexBlock.readBlock]

/-! ## The index entries separate the blocks -/

/-- The keys increase. -/
def Increasing (entries : List (Slice × Slice)) : Prop :=
  entries.Pairwise fun x y => keyRank x.1 < keyRank y.1

theorem Increasing.firstKeyOf_le (h : Increasing entries) (he : e ∈ entries) :
    keyRank (firstKeyOf entries) ≤ keyRank e.1 := by
  cases entries with
  | nil => simp at he
  | cons x rest =>
    rcases List.mem_cons.mp he with rfl | he
    · exact le_rfl
    · exact ((List.pairwise_cons.mp h).1 e he).le

theorem Increasing.le_lastKeyOf (h : Increasing entries) (he : e ∈ entries) (prev : Slice) :
    keyRank e.1 ≤ keyRank (lastKeyOf prev entries) := by
  induction entries generalizing prev e with
  | nil => simp at he
  | cons x rest ih =>
    obtain ⟨hx, hrest⟩ := List.pairwise_cons.mp h
    rw [lastKeyOf_cons]
    rcases List.mem_cons.mp he with rfl | he
    · cases rest with
      | nil => exact le_rfl
      | cons y rest =>
        exact (hx y List.mem_cons_self).le.trans (ih hrest List.mem_cons_self e.1)
    · exact ih hrest he x.1

theorem lastKeyOf_mem (h : entries ≠ []) (prev : Slice) :
    lastKeyOf prev entries ∈ entries.map Prod.fst := by
  unfold lastKeyOf
  rw [List.getLast?_eq_some_getLast h]
  exact List.mem_map_of_mem (List.getLast_mem h)

/-- The index key of a block is less than `next`. If it is not a key of the block, then it is
less by its user key. -/
def Precedes (p : Slice × DataBlock) (next : Slice) : Prop :=
  keyRank p.1 < keyRank next ∧
    (p.1 ∈ p.2.entries.map Prod.fst ∨ extractUserKey p.1 < extractUserKey next)

theorem Precedes.trans_le {p : Slice × DataBlock} {next' : Slice} (h : Precedes p next)
    (hle : keyRank next ≤ keyRank next') : Precedes p next' :=
  ⟨h.1.trans_le hle, h.2.imp_right fun hlt => hlt.trans_le (userKey_le_of_keyRank_le hle)⟩

theorem precedes_internalSeparator (hne : d.entries ≠ [])
    (hnext : keyRank (lastKeyOf [] d.entries) < keyRank next) :
    Precedes (internalSeparator (lastKeyOf [] d.entries) next, d) next := by
  refine ⟨(keyRank_internalSeparator hnext).2, ?_⟩
  rcases internalSeparator_spec (userKey_le_of_keyRank_le hnext.le) with hsame | ⟨-, hlt⟩
  · left
    show internalSeparator _ _ ∈ d.entries.map Prod.fst
    rw [hsame]
    exact lastKeyOf_mem hne []
  · exact .inr hlt

/-- **Blocks with their index keys**: an index key is not less than the keys of its block, and
precedes the keys of the blocks behind. -/
structure Separated (ps : List (Slice × DataBlock)) : Prop where
  covers : ∀ p ∈ ps, ∀ e ∈ p.2.entries, keyRank e.1 ≤ keyRank p.1
  precedes : ps.Pairwise fun p q => ∀ e ∈ q.2.entries, Precedes p e.1

theorem Separated.snoc (h : Separated ps) (hsorted : Increasing d.entries)
    (hbefore : ∀ p ∈ ps, Precedes p (firstKeyOf d.entries)) {key : Slice}
    (hkey : keyRank (lastKeyOf [] d.entries) ≤ keyRank key) : Separated (ps ++ [(key, d)]) where
  covers := by
    intro p hp e he
    rcases List.mem_append.mp hp with hp | hp
    · exact h.covers p hp e he
    · obtain rfl := List.mem_singleton.mp hp
      exact (hsorted.le_lastKeyOf he []).trans hkey
  precedes := by
    refine List.pairwise_append.mpr ⟨h.precedes, List.pairwise_singleton _ _, ?_⟩
    intro p hp q hq e he
    obtain rfl := List.mem_singleton.mp hq
    exact (hbefore p hp).trans_le (hsorted.firstKeyOf_le he)

/-- The index entry of a block. -/
def indexEntry (o : TableOptions) (p : Slice × DataBlock) : Slice × Slice :=
  (p.1, (p.2.handle o).encodeTo)

theorem increasing_blocks {before : List DataBlock} {last : DataBlock}
    (h : Increasing ((before ++ [last]).flatMap DataBlock.entries)) (hne : last.entries ≠ []) :
    Increasing (before.flatMap DataBlock.entries) ∧ Increasing last.entries ∧
      ∀ e ∈ before.flatMap DataBlock.entries, keyRank e.1 < keyRank (firstKeyOf last.entries) := by
  rw [List.flatMap_append, List.flatMap_singleton] at h
  obtain ⟨hbefore, hlast, hlt⟩ := List.pairwise_append.mp h
  refine ⟨hbefore, hlast, fun e he => ?_⟩
  obtain ⟨x, rest, hx⟩ := List.exists_cons_of_ne_nil hne
  rw [hx]
  exact hlt e he x (by simp [hx])

theorem separated_of_indexes (h : Indexes o index done next) (hne : ∀ d ∈ done, d.entries ≠ [])
    (hsorted : Increasing (done.flatMap DataBlock.entries))
    (hnext : ∀ e ∈ done.flatMap DataBlock.entries, keyRank e.1 < keyRank next) :
    ∃ ps : List (Slice × DataBlock), index = ps.map (indexEntry o) ∧ done = ps.map Prod.snd ∧
      Separated ps ∧ ∀ p ∈ ps, Precedes p next := by
  induction h with
  | nil next => exact ⟨[], rfl, rfl, ⟨by simp, .nil⟩, by simp⟩
  | @snoc index before d next h ih =>
    have hd := hne d (by simp)
    obtain ⟨hbefore, hincr, hfirst⟩ := increasing_blocks hsorted hd
    obtain ⟨ps, rfl, rfl, hps, hprec⟩ := ih (fun d hd => hne d (by simp [hd])) hbefore hfirst
    have hlast : keyRank (lastKeyOf [] d.entries) < keyRank next := by
      obtain ⟨e, he, hkey⟩ := List.mem_map.mp (lastKeyOf_mem hd [])
      rw [← hkey]
      exact hnext e (by simp [he])
    refine ⟨ps ++ [(internalSeparator (lastKeyOf [] d.entries) next, d)], by simp [indexEntry],
      by simp, hps.snoc hincr hprec (keyRank_internalSeparator hlast).1, ?_⟩
    intro p hp
    rcases List.mem_append.mp hp with hp | hp
    · have hle : keyRank (firstKeyOf d.entries) ≤ keyRank next := by
        obtain ⟨x, rest, hx⟩ := List.exists_cons_of_ne_nil hd
        have hlt := hnext x (by simp [hx])
        rw [hx]
        exact hlt.le
      exact (hprec p hp).trans_le hle
    · obtain rfl := List.mem_singleton.mp hp
      exact precedes_internalSeparator hd hlast

theorem separated_of_finalIndex (h : FinalIndex o done index) (hne : ∀ d ∈ done, d.entries ≠ [])
    (hsorted : Increasing (done.flatMap DataBlock.entries)) :
    ∃ ps : List (Slice × DataBlock), index = ps.map (indexEntry o) ∧ done = ps.map Prod.snd ∧
      Separated ps := by
  rcases h with ⟨rfl, rfl⟩ | ⟨before, last, entries, rfl, hindexes, rfl⟩
  · exact ⟨[], rfl, rfl, by simp, .nil⟩
  · obtain ⟨hbefore, hincr, hfirst⟩ := increasing_blocks hsorted (hne last (by simp))
    obtain ⟨ps, rfl, rfl, hps, hprec⟩ :=
      separated_of_indexes hindexes (fun d hd => hne d (by simp [hd])) hbefore hfirst
    exact ⟨ps ++ [(internalSuccessor (lastKeyOf [] last.entries), last)], by simp [indexEntry],
      by simp, hps.snoc hincr hprec (keyRank_internalSuccessor _)⟩

/-! ## Lookups -/

/-- The first entry that is not less than `k`. -/
def firstAtLeast (k : Slice) (entries : List (Slice × Slice)) : Option (Slice × Slice) :=
  entries.find? fun e => internalKeyCompare e.1 k ≠ .lt

theorem not_before_iff (a k : Slice) : internalKeyCompare a k ≠ .lt ↔ keyRank k ≤ keyRank a := by
  rw [Ne, internalKeyCompare_eq_lt_iff_rank, not_lt]

theorem firstAtLeast_eq_none_iff (k : Slice) (entries : List (Slice × Slice)) :
    firstAtLeast k entries = none ↔ ∀ e ∈ entries, keyRank e.1 < keyRank k := by
  unfold firstAtLeast
  rw [List.find?_eq_none]
  refine forall₂_congr fun e _ => ?_
  rw [decide_eq_true_iff, not_before_iff, not_le]

theorem firstAtLeast_append (k : Slice) (xs ys : List (Slice × Slice)) :
    firstAtLeast k (xs ++ ys) = (firstAtLeast k xs).or (firstAtLeast k ys) :=
  List.find?_append

theorem Separated.firstAtLeast_eq_none (h : Separated ps)
    (hfind : firstAtLeast k (ps.map (indexEntry o)) = none) :
    firstAtLeast k (ps.flatMap fun p => p.2.entries) = none := by
  rw [firstAtLeast_eq_none_iff] at hfind ⊢
  intro e he
  obtain ⟨p, hp, he⟩ := List.mem_flatMap.mp he
  exact (h.covers p hp e he).trans_lt (hfind (indexEntry o p) (List.mem_map_of_mem hp))

/-- **The block of the index entry** has the first entry that is not less than `k`, or else that
entry has a greater user key. -/
theorem Separated.firstAtLeast_eq (h : Separated ps) {x : Slice × Slice}
    (hfind : firstAtLeast k (ps.map (indexEntry o)) = some x) : ∃ p ∈ ps, x = indexEntry o p ∧
      (firstAtLeast k (ps.flatMap fun p => p.2.entries) = firstAtLeast k p.2.entries ∨
        (firstAtLeast k p.2.entries = none ∧
          ∀ e, firstAtLeast k (ps.flatMap fun p => p.2.entries) = some e →
            extractUserKey k < extractUserKey e.1)) := by
  induction ps with
  | nil => simp [firstAtLeast] at hfind
  | cons p rest ih =>
    obtain ⟨hprec, hrest⟩ := List.pairwise_cons.mp h.precedes
    rw [List.flatMap_cons, firstAtLeast_append]
    by_cases hp : keyRank k ≤ keyRank p.1
    · -- this is the block of the index entry
      have hx : x = indexEntry o p := by
        unfold firstAtLeast at hfind
        rw [List.map_cons, List.find?_cons_of_pos
          (by rw [decide_eq_true_iff, not_before_iff]; exact hp)] at hfind
        exact (Option.some.inj hfind).symm
      refine ⟨p, List.mem_cons_self, hx, ?_⟩
      cases hblock : firstAtLeast k p.2.entries with
      | some e => exact .inl rfl
      | none =>
        refine .inr ⟨rfl, fun e he => ?_⟩
        obtain ⟨q, hq, heq⟩ := List.mem_flatMap.mp (List.mem_of_find?_eq_some he)
        rcases (hprec q hq e heq).2 with hkey | hlt
        · obtain ⟨e', he', hkey⟩ := List.mem_map.mp hkey
          have hbefore := (firstAtLeast_eq_none_iff _ _).mp hblock e' he'
          rw [hkey] at hbefore
          exact absurd hbefore (not_lt.mpr hp)
        · exact (userKey_le_of_keyRank_le hp).trans_lt hlt
    · -- all entries of this block are less than `k`
      have hnone : firstAtLeast k p.2.entries = none :=
        (firstAtLeast_eq_none_iff _ _).mpr fun e he =>
          (h.covers p List.mem_cons_self e he).trans_lt (not_le.mp hp)
      have hfind' : firstAtLeast k (rest.map (indexEntry o)) = some x := by
        unfold firstAtLeast at hfind ⊢
        rwa [List.map_cons, List.find?_cons_of_neg
          (by rw [decide_eq_true_iff, not_before_iff]; exact hp)] at hfind
      obtain ⟨q, hq, hx, hresult⟩ :=
        ih ⟨fun q hq => h.covers q (List.mem_cons_of_mem _ hq), hrest⟩ hfind'
      rw [hnone, Option.none_or]
      exact ⟨q, List.mem_cons_of_mem _ hq, hx, hresult⟩

theorem Separated.downward (h : Separated ps) (hne : ∀ p ∈ ps, p.2.entries ≠ []) (k : Slice) :
    (ps.map (indexEntry o)).Pairwise fun x y =>
      internalKeyCompare y.1 k = .lt → internalKeyCompare x.1 k = .lt := by
  refine List.pairwise_map.mpr (h.precedes.imp_of_mem ?_)
  intro p q hp hq hprec hlt
  obtain ⟨e, rest, he⟩ := List.exists_cons_of_ne_nil (hne q hq)
  have hmem : e ∈ q.2.entries := he ▸ List.mem_cons_self
  rw [internalKeyCompare_eq_lt_iff_rank] at hlt ⊢
  exact ((hprec e hmem).1.trans_le (h.covers q hq e hmem)).trans hlt

theorem Increasing.downward (h : Increasing entries) (k : Slice) : entries.Pairwise fun x y =>
    internalKeyCompare y.1 k = .lt → internalKeyCompare x.1 k = .lt := by
  refine List.Pairwise.imp (fun hlt hbefore => ?_) h
  rw [internalKeyCompare_eq_lt_iff_rank] at hbefore ⊢
  exact hlt.trans hbefore

/-- A filter policy of a database, if any: `InternalFilterPolicy` over a policy without false
negatives. -/
def FilterSound (o : TableOptions) : Prop :=
  ∀ policy, o.filterPolicy = some policy →
    ∃ user : FilterPolicy, user.NoFalseNegatives ∧ policy = user.internal

section

variable (h : Complete o b done index metaindex footer)

include h

theorem filteredOut_eq_false (hfits : b.Fits) (hsound : FilterSound o) (hd : d ∈ done)
    (he : e ∈ d.entries) (hkey : extractUserKey e.1 = extractUserKey k) (indexBlock : Block) :
    filteredOut o ⟨b.file, indexBlock, readMeta o b.file footer⟩ (d.handle o).encodeTo k =
      false := by
  unfold filteredOut
  cases hpolicy : o.filterPolicy with
  | none => rfl
  | some policy =>
    obtain ⟨user, hnfn, rfl⟩ := hsound policy hpolicy
    obtain ⟨fb, offset, hfiled, hsize, hread⟩ := readMeta_complete h hfits hpolicy
    rw [hread, decodeFrom_encodeTo_nil ((h.data d hd).2.handle_fits hfits.file)]
    have hadded : (d.offset, e.1) ∈ done.flatMap DataBlock.added :=
      List.mem_flatMap.mpr ⟨d, hd, List.mem_map_of_mem he⟩
    have hmatch : (FilterBlockReader.new (fb.finish user.internal)).keyMayMatch user.internal
        d.offset k = true :=
      hfiled.keyMayMatch ((FilterBlockBuilder.length_result_le _ fb).trans_lt hsize) hadded
        (hnfn _ _ (hkey ▸ List.mem_map_of_mem (FilterBlockBuilder.mem_keysIn hadded)))
    show (!FilterBlockReader.keyMayMatch _ _ d.offset k) = false
    rw [hmatch]
    rfl

theorem seekBlock_handle (hfile : b.file.length < 2 ^ 64) (hd : d ∈ done) (verifyChecksums : Bool)
    (k : Slice) (indexBlock : Block) (filter : Option FilterBlockReader) :
    seekBlock o ⟨b.file, indexBlock, filter⟩ verifyChecksums (d.handle o).encodeTo k =
      (Block.new (d.contents o)).seek internalKeyCompare k := by
  have hhas := (h.data d hd).2
  unfold seekBlock
  rw [decodeFrom_encodeTo_nil (hhas.handle_fits hfile)]
  dsimp only
  rw [hhas.readBlock]

theorem seekBlock_complete (hfits : b.Fits) (hd : d ∈ done) (hsorted : Increasing d.entries)
    (verifyChecksums : Bool) (k : Slice) (indexBlock : Block) (filter : Option FilterBlockReader) :
    seekBlock o ⟨b.file, indexBlock, filter⟩ verifyChecksums (d.handle o).encodeTo k =
      (firstAtLeast k d.entries, .ok) := by
  rw [seekBlock_handle h hfits.file hd]
  exact seek_addAll (hfits.blocks _ (h.data d hd).2.1) internalKeyCompare k (hsorted.downward k)

/-- **`InternalGet` on a finished table** finds the first entry that is not less than the lookup
key, unless that entry has another user key. -/
theorem internalGet_seek (hfits : b.Fits) (hsound : FilterSound o)
    (hsorted : Increasing (done.flatMap DataBlock.entries)) (verifyChecksums : Bool) (k : Slice) :
    ∃ t found, openTable o b.file = .ok t ∧ t.internalGet o verifyChecksums k = (found, .ok) ∧
      (found = firstAtLeast k (done.flatMap DataBlock.entries) ∨
        (found = none ∧ ∀ e, firstAtLeast k (done.flatMap DataBlock.entries) = some e →
          extractUserKey e.1 ≠ extractUserKey k)) := by
  obtain ⟨ps, rfl, rfl, hsep⟩ :=
    separated_of_finalIndex h.finalIndex (fun d hd => (h.data d hd).1) hsorted
  have hne : ∀ p ∈ ps, p.2.entries ≠ [] := fun p hp => (h.data _ (List.mem_map_of_mem hp)).1
  have hseek := seek_addAll (hfits.blocks _ h.indexBlock.1) internalKeyCompare k
    (hsep.downward hne k)
  rw [List.flatMap_map] at hsorted ⊢
  obtain ⟨t, ht⟩ : ∃ t : Table, t = ⟨b.file,
      Block.new (BlockBuilder.new.addAll 1 (ps.map (indexEntry o))).finish,
      readMeta o b.file footer⟩ := ⟨_, rfl⟩
  have hindex : t.indexBlock.seek internalKeyCompare k =
      (firstAtLeast k (ps.map (indexEntry o)), .ok) := by
    rw [ht]
    exact hseek
  have hopen : openTable o b.file = .ok t := ht ▸ openTable_complete h hfits.file
  cases hfind : firstAtLeast k (ps.map (indexEntry o)) with
  | none =>
    refine ⟨t, none, hopen, ?_, .inl (hsep.firstAtLeast_eq_none hfind).symm⟩
    unfold internalGet
    rw [hindex, hfind]
  | some x =>
    obtain ⟨p, hp, rfl, hblock⟩ := hsep.firstAtLeast_eq hfind
    have hd : p.2 ∈ ps.map Prod.snd := List.mem_map_of_mem hp
    have hincr : Increasing p.2.entries :=
      (List.pairwise_flatMap.mp hsorted).1 p hp
    have hget : t.internalGet o verifyChecksums k =
        (if t.filteredOut o (p.2.handle o).encodeTo k then none
          else firstAtLeast k p.2.entries, .ok) := by
      unfold internalGet
      rw [hindex, hfind]
      dsimp only [indexEntry]
      rw [ht, seekBlock_complete h hfits hd hincr, ← ht]
      split_ifs <;> rfl
    refine ⟨t, _, hopen, hget, ?_⟩
    by_cases hout : t.filteredOut o (p.2.handle o).encodeTo k = true
    · -- the filter says that the block has no version of the user key
      rw [if_pos hout]
      refine .inr ⟨rfl, fun e he hkey => ?_⟩
      rcases hblock with hsame | ⟨-, hlt⟩
      · rw [hsame] at he
        have hin := filteredOut_eq_false h hfits hsound hd (List.mem_of_find?_eq_some he) hkey
          t.indexBlock
        rw [ht] at hout hin
        exact absurd hout (by rw [hin]; exact Bool.false_ne_true)
      · exact absurd hkey (hlt e he).ne'
    · rw [if_neg hout]
      rcases hblock with hsame | ⟨hnone, hlt⟩
      · exact .inl hsame.symm
      · exact .inr ⟨hnone, fun e he => (hlt e he).ne'⟩

end

/-! ## Versions of user keys -/

theorem firstAtLeast_record (k : Slice) (entries : List Entry) :
    firstAtLeast k (entries.map Entry.record) = (seek entries k).map Entry.record := by
  unfold firstAtLeast seek
  rw [List.find?_map]
  rfl

/-- The finished table of some entries. -/
def build (o : TableOptions) (number : ℕ) (entries : List Entry) : TableBuilder :=
  ((TableBuilder.new o).addAll o number (entries.map Entry.record)).finish o

theorem build_complete (ho : o.compression = .noCompression) (number : ℕ) (entries : List Entry) :
    ∃ done index metaindex footer, Complete o (build o number entries) done index metaindex footer ∧
        done.flatMap DataBlock.entries = entries.map Entry.record :=
  finish_complete ho number (entries.map Entry.record)

/-- **A lookup in a finished table** passes the newest version of the user key that is not too
new, if there is one, and otherwise no version of the user key. -/
theorem internalGet_finish (ho : o.compression = .noCompression) (hsound : FilterSound o)
    (number : ℕ) {entries : List Entry}
    (hsorted : entries.Pairwise fun x y => internalKeyCompare x.internalKey y.internalKey = .lt)
    (hrange : ∀ e ∈ entries, e.sequence ≤ maxSequenceNumber)
    (hfits : (build o number entries).Fits) (verifyChecksums : Bool) (u : Slice) {s : ℕ}
    (hs : s ≤ maxSequenceNumber) :
    ∃ t found, openTable o (build o number entries).file = .ok t ∧
      t.internalGet o verifyChecksums (lookupKey u s) = (found, .ok) ∧
      ((∃ e ∈ entries, e.userKey = u ∧ e.sequence ≤ s) →
        ∃ e, Versions.Sees Entry.userKey Entry.sequence entries u s e ∧ found = some (Entry.record e)) ∧
      ((¬ ∃ e ∈ entries, e.userKey = u ∧ e.sequence ≤ s) →
        ∀ kv, found = some kv → ∃ e ∈ entries, kv = Entry.record e ∧ e.userKey ≠ u) := by
  obtain ⟨done, index, metaindex, footer, hcomplete, hentries⟩ :=
    build_complete ho number entries
  have hincr : Increasing (entries.map Entry.record) :=
    List.pairwise_map.mpr (hsorted.imp fun h => (internalKeyCompare_eq_lt_iff_rank _ _).mp h)
  obtain ⟨t, found, hopen, hget, hfound⟩ :=
    internalGet_seek hcomplete hfits hsound (hentries ▸ hincr) verifyChecksums (lookupKey u s)
  rw [hentries, firstAtLeast_record] at hfound
  have hversions : entries.Pairwise (Versions.Le Entry.userKey Entry.sequence) := by
    have hle : Sorted entries := ⟨hsorted.imp fun h => by simp [Entry.Le, h], hrange⟩
    exact hle.versions
  have hfind : ((seek entries (lookupKey u s)).filter fun e => compareSlices e.userKey u = .eq) =
      findEntry entries u s := seek_filter hrange hs
  refine ⟨t, found, hopen, hget, ?_, ?_⟩
  · rintro ⟨e, he, hkey, hle⟩
    -- the version that the reader sees is the one where the search stops
    obtain ⟨v, hv⟩ : ∃ v, findEntry entries u s = some v := by
      by_contra hnone
      rw [not_exists, ← Option.eq_none_iff_forall_ne_some] at hnone
      exact absurd ((Versions.find_eq_none_iff hversions).mp hnone e he hkey) (not_lt.mpr hle)
    rw [hv, Option.filter_eq_some_iff] at hfind
    obtain ⟨hseek, hsame⟩ := hfind
    rw [hseek] at hfound
    refine ⟨v, Versions.find_sees hversions hv, ?_⟩
    rcases hfound with hfound | ⟨-, hother⟩
    · exact hfound
    · refine absurd ?_ (hother (Entry.record v) rfl)
      simpa [Entry.record, Entry.internalKey, lookupKey, compareSlices_eq_iff] using hsame
  · intro hnone kv hkv
    have hnone' : findEntry entries u s = none :=
      (Versions.find_eq_none_iff hversions).mpr fun e he hkey =>
        not_le.mp fun hle => hnone ⟨e, he, hkey, hle⟩
    rcases hfound with hfound | ⟨hfound, -⟩
    · obtain ⟨e, hseek, rfl⟩ := Option.map_eq_some_iff.mp (hfound.symm.trans hkv)
      refine ⟨e, List.mem_of_find?_eq_some hseek, rfl, fun hkey => ?_⟩
      rw [hnone', hseek] at hfind
      simp [Option.filter, compareSlices_eq_iff, hkey] at hfind
    · rw [hfound] at hkv
      cases hkv

/-- A policy that keeps the first bytes of the keys. -/
def firstBytes : FilterPolicy where
  name := [102]
  createFilter keys := keys.map fun key => key.headD 0
  keyMayMatch key filter := filter.contains (key.headD 0)

/-- The versions 3 and 1 of a key are in different blocks. -/
theorem internalGet_twoBlocks :
    let o : TableOptions := ⟨1, 16, some firstBytes.internal, .noCompression, fun _ => none,
      fun _ => none, true⟩
    let entries : List Entry := [⟨[97], 3, .value, [51]⟩, ⟨[97], 1, .value, [49]⟩]
    ∃ t found, openTable o (build o 7 entries).file = .ok t ∧
      t.internalGet o true (lookupKey [97] 2) = (found, .ok) ∧
      ∃ e, Versions.Sees Entry.userKey Entry.sequence entries [97] 2 e ∧
        found = some (Entry.record e) := by
  intro o entries
  have hsound : FilterSound o := by
    intro policy hpolicy
    refine ⟨firstBytes, fun keys key hkey => ?_, (Option.some.inj hpolicy).symm⟩
    exact List.contains_iff_mem.mpr (List.mem_map_of_mem hkey)
  obtain ⟨t, found, hopen, hget, hsees, -⟩ := internalGet_finish rfl hsound 7
    (show entries.Pairwise _ by decide) (by decide) ⟨by decide +kernel, by decide +kernel⟩ true [97]
    (show 2 ≤ maxSequenceNumber by decide)
  exact ⟨t, found, hopen, hget, hsees ⟨⟨[97], 1, .value, [49]⟩, by decide, by decide, by decide⟩⟩

/-! ## A value of `2^32` bytes -/

theorem plainOptions_noCompression : plainOptions.compression = .noCompression := rfl

/-- A version of the user key `a`. -/
def versionA (value : Slice) : Entry := ⟨[97], 1, .value, value⟩

theorem internalKey_versionA (value : Slice) : (versionA value).internalKey = keyA := by
  show appendInternalKey [97] 1 .value = keyA
  decide

theorem seek_huge (hv : rest.length = 2 ^ 32 - 4) :
    (Block.new (BlockBuilder.new.addAll 16 [(keyA, [0, 0, 0, 0] ++ rest)]).finish).seek
      internalKeyCompare (lookupKey [97] 1) = (some (keyA, []), .ok) := by
  obtain ⟨b, hnew, hsize, hoffset, hnum, hparse⟩ := parseNextKey_huge hv
  have hcmp : internalKeyCompare keyA (lookupKey [97] 1) = .eq := by decide
  obtain ⟨trace, htarget⟩ : ∃ trace, b.seekTarget internalKeyCompare 1 (lookupKey [97] 1)
      ⟨b.iter 1, []⟩ = some ⟨⟨0, 0, keyA, 12, 0, .ok⟩, trace⟩ := by
    refine ⟨[.restart 0] ++ b.parseTrace 1 (b.seekToRestartPoint (b.iter 1) 0), ?_⟩
    have hsearch : b.searchRestart internalKeyCompare (lookupKey [97] 1) 1 0 (1 - 1) [] =
        some (some 0, []) := rfl
    unfold Block.seekTarget
    rw [hsearch, Option.bind_some]
    unfold Block.parseWhile Block.parse Block.seekToRestart
    dsimp only
    rw [hparse]
    dsimp only
    rw [hcmp]
    rfl
  rw [hnew]
  unfold Block.seek
  rw [Block.newIterator_huge hsize hnum]
  unfold Block.step
  rw [show b.allowed (.iter ⟨b.iter 1, []⟩) (.seek (lookupKey [97] 1)) = true from rfl, if_pos rfl,
    hnum]
  dsimp only [Block.call]
  rw [htarget]
  simp [Block.shown, Block.statusOf, Block.valid, Block.value, hoffset]

theorem length_index_le (key : Slice) (handle : BlockHandle) :
    (BlockBuilder.new.add 1 key handle.encodeTo).finish.length ≤ key.length + 43 := by
  have hhandle := handle.length_encodeTo_le
  have h1 := length_encodeVarint32_le (0 % 2 ^ 32)
  have h2 := length_encodeVarint32_le ((key.drop 0).length % 2 ^ 32)
  have h3 := length_encodeVarint32_le (handle.encodeTo.length % 2 ^ 32)
  show ((([] : Slice) ++ (BlockBuilder.entryHeader 0 (key.drop 0).length handle.encodeTo.length ++
    (key.drop 0 ++ handle.encodeTo))) ++ ([0].flatMap encodeFixed32 ++ encodeFixed32 1)).length ≤ _
  unfold BlockBuilder.entryHeader
  simp only [List.length_append, List.length_nil, List.flatMap_singleton, length_encodeFixed32,
    List.drop_zero] at h2 ⊢
  omega

theorem length_finish_file (ho : o.compression = .noCompression) (hpolicy : o.filterPolicy = none)
    (hflush : t.flush o = t) (hpending : t.pendingIndexEntry = true) :
    (t.finish o).file.length = t.file.length +
      ((t.indexBlock.add 1 (internalSuccessor t.lastKey) t.pendingHandle.encodeTo).finish.length +
        66) := by
  have hfilter : t.writeFilter o = (t, .new) := by
    unfold writeFilter
    rw [hpolicy]
  unfold TableBuilder.finish
  simp only [writeBlock_noCompression ho]
  rw [hflush, hfilter]
  simp [writeRawBlock, hpending, addIndexEntry, Footer.length_encodeTo, Footer.encodedLength,
    blockTrailerSize, BlockBuilder.new, BlockBuilder.finish]
  ring

theorem flush_of_nonempty (ho : o.compression = .noCompression)
    (hempty : ¬ t.dataBlock.empty = true) :
    (t.flush o).file = t.file ++ rawBlock t.dataBlock.finish .noCompression ∧
      (t.flush o).indexBlock = t.indexBlock ∧ (t.flush o).lastKey = t.lastKey ∧
        (t.flush o).pendingIndexEntry = true := by
  unfold TableBuilder.flush
  rw [if_neg hempty, writeBlock_noCompression ho]
  exact ⟨rfl, rfl, rfl, rfl⟩

theorem length_file_huge (hv : value.length = 2 ^ 32) :
    (build plainOptions 7 [versionA value]).file.length < 2 ^ 64 := by
  obtain ⟨t, ht⟩ : ∃ t, t = (TableBuilder.new plainOptions).insert plainOptions 7 keyA value :=
    ⟨_, rfl⟩
  have hdata : t.dataBlock = BlockBuilder.new.addAll 16 [(keyA, value)] := by
    rw [ht]
    rfl
  have hlen : t.dataBlock.finish.length = 2 ^ 32 + 20 := by
    rw [hdata, finish_huge hv]
    simp [keyA, hv]
  have hempty : ¬ t.dataBlock.empty = true := by
    rw [hdata, empty_addAll_iff]
    exact List.cons_ne_nil _ _
  have hbuild : build plainOptions 7 [versionA value] =
      (t.flush plainOptions).finish plainOptions := by
    show (TableBuilder.add plainOptions 7 _ (versionA value).internalKey value).finish _ = _
    rw [internalKey_versionA]
    unfold TableBuilder.add
    dsimp only
    rw [← ht]
    split_ifs
    · rfl
    · unfold TableBuilder.finish
      rw [flush_flush]
  obtain ⟨hfile, hindex, hlast, hpending⟩ := flush_of_nonempty plainOptions_noCompression hempty
  have hkeys : t.file = [] ∧ t.indexBlock = .new ∧
      internalSuccessor t.lastKey = internalSuccessor keyA := by
    rw [ht]
    exact ⟨rfl, rfl, rfl⟩
  obtain ⟨hnil, hnew, hsucc⟩ := hkeys
  have hle := length_index_le (internalSuccessor keyA) (t.flush plainOptions).pendingHandle
  have hkey : (internalSuccessor keyA).length = 9 := by decide
  rw [hbuild, length_finish_file rfl rfl (flush_flush _ _) hpending, hfile, hindex, hlast, hnil,
    hnew, hsucc, List.nil_append, length_rawBlock, hlen]
  unfold blockTrailerSize
  omega

theorem done_singleton {done : List DataBlock} (hne : ∀ d ∈ done, d.entries ≠ [])
    (h : done.flatMap DataBlock.entries = [e]) : ∃ d, done = [d] ∧ d.entries = [e] := by
  cases done with
  | nil => simp at h
  | cons d rest =>
    rw [List.flatMap_cons, List.append_eq_singleton_iff] at h
    rcases h with ⟨hnil, -⟩ | ⟨hd, hrest⟩
    · exact absurd hnil (hne d List.mem_cons_self)
    · cases rest with
      | nil => exact ⟨d, rfl, hd⟩
      | cons d' rest =>
        exact absurd (List.flatMap_eq_nil_iff.mp hrest d' List.mem_cons_self) (hne d' (by simp))

theorem internalGet_huge (hrest : rest.length = 2 ^ 32 - 4) : ∃ t, openTable plainOptions
      (build plainOptions 7 [versionA ([0, 0, 0, 0] ++ rest)]).file = .ok t ∧
    t.internalGet plainOptions false (lookupKey [97] 1) = (some (keyA, []), .ok) := by
  obtain ⟨value, hvalue⟩ : ∃ value : Slice, value = [0, 0, 0, 0] ++ rest := ⟨_, rfl⟩
  have hv : value.length = 2 ^ 32 := by
    rw [hvalue]
    simp [hrest]
  have hfile := length_file_huge hv
  obtain ⟨done, index, metaindex, footer, h, hentries⟩ :=
    build_complete plainOptions_noCompression 7 [versionA value]
  obtain ⟨d, rfl, hd⟩ := done_singleton (fun d hd => (h.data d hd).1) hentries
  have hrecord : Entry.record (versionA value) = (keyA, value) := by
    rw [← internalKey_versionA value]
    rfl
  rw [hrecord] at hd
  have hindex : index = [(internalSuccessor keyA, (d.handle plainOptions).encodeTo)] := by
    rcases h.finalIndex with ⟨hnil, -⟩ | ⟨before, last, entries, hdone, hindexes, rfl⟩
    · simp at hnil
    · obtain ⟨rfl, rfl⟩ : before = [] ∧ last = d := by
        simpa [List.singleton_eq_append_iff] using hdone
      rw [indexes_nil hindexes, hd]
      rfl
  subst hindex
  have hsize : (BlockBuilder.new.addAll 1
      [(internalSuccessor keyA, (d.handle plainOptions).encodeTo)]).finish.length < 2 ^ 32 := by
    refine (length_index_le (internalSuccessor keyA) (d.handle plainOptions)).trans_lt ?_
    decide
  have hseek := seek_addAll hsize internalKeyCompare (lookupKey [97] 1)
    (List.pairwise_singleton _ _)
  have hkey : internalKeyCompare (internalSuccessor keyA) (lookupKey [97] 1) ≠ .lt := by decide
  have hblock : (Block.new (d.contents plainOptions)).seek internalKeyCompare (lookupKey [97] 1) =
      (some (keyA, []), .ok) := by
    unfold DataBlock.contents
    rw [hd, hvalue]
    exact seek_huge hrest
  rw [← hvalue]
  refine ⟨_, openTable_complete h hfile, ?_⟩
  unfold internalGet
  dsimp only
  rw [hseek, List.find?_cons_of_pos (by simp [hkey])]
  dsimp only
  rw [if_neg (by simp [filteredOut, plainOptions]), seekBlock_handle h hfile List.mem_cons_self,
    hblock]
  rfl

/-- **A value of `2^32` bytes is lost**: the lookup passes the key with an empty value. -/
theorem internalGet_hugeValue :
    let e := versionA (List.replicate (2 ^ 32) 0)
    Versions.Sees Entry.userKey Entry.sequence [e] [97] 1 e ∧
      ∃ t found, openTable plainOptions (build plainOptions 7 [e]).file = .ok t ∧
        t.internalGet plainOptions false (lookupKey [97] 1) = (found, .ok) ∧
          found ≠ some (Entry.record e) := by
  intro e
  obtain ⟨t, hopen, hget⟩ := internalGet_huge (List.length_replicate (n := 2 ^ 32 - 4) (a := 0))
  have he : e = versionA ([0, 0, 0, 0] ++ List.replicate (2 ^ 32 - 4) 0) :=
    congrArg versionA replicate_huge
  rw [he]
  refine ⟨⟨List.mem_singleton_self _, rfl, le_rfl, fun b hb _ _ => ?_⟩, t, _, hopen, hget, ?_⟩
  · rw [List.mem_singleton.mp hb]
  · intro heq
    cases Option.some.inj heq

end Table

end McfKv
