import McfKv.Db.DbFormat

/-!
# Filter blocks (`table/filter_block.cc`, `InternalFilterPolicy` in `db/dbformat.cc`)

A filter block has one filter for every 2 KiB of the file: the filter with number `i` is for
the keys of the data blocks that start between `2048 * i` and `2048 * (i + 1)`. A filter may be
empty. The offsets of the filters stand behind them and have 32 bits.

The filter policy is a parameter. `Filed` tells which keys each filter has, and the calls of a table
builder keep it. `Filed.keyMayMatch`: a finished filter block matches what the policy matches for the
keys of a range, so that a policy without false negatives gives a filter block without them.
-/

namespace McfKv

open Coding

/-- `class FilterPolicy`. -/
structure FilterPolicy where
  name : Slice
  createFilter : List Slice → Slice
  keyMayMatch : Slice → Slice → Bool

/-- A key that was used to create a filter matches it. -/
def FilterPolicy.NoFalseNegatives (policy : FilterPolicy) : Prop :=
  ∀ keys, ∀ key ∈ keys, policy.keyMayMatch key (policy.createFilter keys) = true

/-- `class InternalFilterPolicy`: the policy sees user keys. -/
def FilterPolicy.internal (policy : FilterPolicy) : FilterPolicy where
  name := policy.name
  createFilter keys := policy.createFilter (keys.map extractUserKey)
  keyMayMatch key filter := policy.keyMayMatch (extractUserKey key) filter

/-- `kFilterBaseLg`. -/
def filterBaseLg : ℕ := 11

/-- `class FilterBlockBuilder`. The keys are a list here, not a flat string. -/
structure FilterBlockBuilder where
  keys : List Slice
  result : Slice
  filterOffsets : List ℕ
deriving DecidableEq, Repr

namespace FilterBlockBuilder

def new : FilterBlockBuilder := ⟨[], [], []⟩

/-- `FilterBlockBuilder::GenerateFilter`. -/
def generateFilter (policy : FilterPolicy) (b : FilterBlockBuilder) : FilterBlockBuilder :=
  let filterOffsets := b.filterOffsets ++ [b.result.length % 2 ^ 32]
  if b.keys.isEmpty then { b with filterOffsets := filterOffsets }
  else ⟨[], b.result ++ policy.createFilter b.keys, filterOffsets⟩

/-- `FilterBlockBuilder::StartBlock`. A round of its loop adds one filter. -/
def startBlock (policy : FilterPolicy) (b : FilterBlockBuilder) (blockOffset : ℕ) :
    FilterBlockBuilder :=
  (generateFilter policy)^[blockOffset / 2 ^ filterBaseLg - b.filterOffsets.length] b

/-- `FilterBlockBuilder::AddKey`. -/
def addKey (b : FilterBlockBuilder) (key : Slice) : FilterBlockBuilder :=
  { b with keys := b.keys ++ [key] }

/-- `FilterBlockBuilder::Finish`. -/
def finish (policy : FilterPolicy) (b : FilterBlockBuilder) : Slice :=
  let b := if b.keys.isEmpty then b else b.generateFilter policy
  b.result ++ (b.filterOffsets.flatMap encodeFixed32 ++
    (encodeFixed32 b.result.length ++ [UInt8.ofNat filterBaseLg]))

end FilterBlockBuilder

/-- `class FilterBlockReader`; `offset` is `offset_ - data_`. -/
structure FilterBlockReader where
  data : Slice
  offset : ℕ
  num : ℕ
  baseLg : ℕ
deriving DecidableEq, Repr

namespace FilterBlockReader

/-- `FilterBlockReader::FilterBlockReader`. -/
def new (contents : Slice) : FilterBlockReader :=
  let n := contents.length
  if n < 5 then ⟨[], 0, 0, 0⟩
  else
    let baseLg := (contents.getD (n - 1) 0).toNat
    let lastWord := decodeFixed32 (contents.drop (n - 5))
    if n - 5 < lastWord then ⟨[], 0, 0, baseLg⟩
    else ⟨contents, lastWord, (n - 5 - lastWord) / 4, baseLg⟩

/-- `FilterBlockReader::KeyMayMatch`. Errors are treated as potential matches. -/
def keyMayMatch (policy : FilterPolicy) (r : FilterBlockReader) (blockOffset : ℕ) (key : Slice) :
    Bool :=
  let index := blockOffset >>> r.baseLg
  if index < r.num then
    let start := decodeFixed32 (r.data.drop (r.offset + index * 4))
    let limit := decodeFixed32 (r.data.drop (r.offset + index * 4 + 4))
    if start ≤ limit ∧ limit ≤ r.offset then
      policy.keyMayMatch key ((r.data.drop start).take (limit - start))
    else if start = limit then false
    else true
  else true

end FilterBlockReader

/-! ## The filters of a block -/

namespace FilterBlockBuilder

variable {policy : FilterPolicy} {b : FilterBlockBuilder} {filters : List (List Slice)}

/-- The bytes of the filter for some keys. -/
def piece (policy : FilterPolicy) (keys : List Slice) : Slice :=
  if keys.isEmpty then [] else policy.createFilter keys

/-- The bytes of the filters for some lists of keys. -/
def pieces (policy : FilterPolicy) (filters : List (List Slice)) : List Slice :=
  filters.map (piece policy)

/-- **The filters that have been generated**, one for each list of keys. -/
structure Generated (policy : FilterPolicy) (b : FilterBlockBuilder)
    (filters : List (List Slice)) : Prop where
  result : b.result = (pieces policy filters).flatten
  offsets : b.filterOffsets =
    (List.range filters.length).map fun i => offsetOf (pieces policy filters) i % 2 ^ 32

theorem new_generated (policy : FilterPolicy) : Generated policy new [] := ⟨rfl, rfl⟩

variable {i offset n : ℕ} {added : List (ℕ × Slice)} {p : ℕ × Slice} {key : Slice}

theorem offsetOf_append (h : i ≤ filters.length) (keys : List Slice) :
    offsetOf (pieces policy (filters ++ [keys])) i = offsetOf (pieces policy filters) i := by
  unfold offsetOf pieces
  rw [List.map_append, List.take_append_of_le_length (by simpa using h)]

theorem Generated.length (h : Generated policy b filters) :
    b.filterOffsets.length = filters.length := by
  rw [h.offsets]
  simp

theorem Generated.generateFilter (h : Generated policy b filters) :
    Generated policy (b.generateFilter policy) (filters ++ [b.keys]) ∧
      (b.generateFilter policy).keys = [] := by
  have hoffsets : b.filterOffsets ++ [b.result.length % 2 ^ 32] =
      (List.range (filters ++ [b.keys]).length).map
        fun i => offsetOf (pieces policy (filters ++ [b.keys])) i % 2 ^ 32 := by
    rw [List.length_append, List.length_singleton, List.range_succ, List.map_append, h.offsets]
    congr 1
    · refine List.map_congr_left fun i hi => ?_
      rw [offsetOf_append (List.mem_range.mp hi).le]
    · rw [List.map_singleton, offsetOf_append le_rfl, offsetOf_of_length_le (by simp [pieces]),
        h.result]
  have hpieces : (pieces policy (filters ++ [b.keys])).flatten = b.result ++ piece policy b.keys := by
    rw [h.result]
    simp [pieces]
  unfold FilterBlockBuilder.generateFilter
  dsimp only
  by_cases hkeys : b.keys.isEmpty
  · rw [if_pos hkeys]
    refine ⟨⟨?_, hoffsets⟩, List.isEmpty_iff.mp hkeys⟩
    rw [hpieces, piece, if_pos hkeys, List.append_nil]
  · rw [if_neg hkeys]
    refine ⟨⟨?_, hoffsets⟩, rfl⟩
    rw [hpieces, piece, if_neg hkeys]

/-! ## Reading a finished filter block -/

theorem flatten_pieces (policy : FilterPolicy) {keys : List Slice} (h : filters[i]? = some keys) :
    offsetOf (pieces policy filters) (i + 1) =
        offsetOf (pieces policy filters) i + (piece policy keys).length ∧
      ∃ rest, (pieces policy filters).flatten =
        ((pieces policy filters).take i).flatten ++ (piece policy keys ++ rest) := by
  have hpiece : (pieces policy filters)[i]? = some (piece policy keys) := by
    simp [pieces, List.getElem?_map, h]
  obtain ⟨hlt, hget⟩ := List.getElem?_eq_some_iff.mp hpiece
  refine ⟨?_, ((pieces policy filters).drop (i + 1)).flatten, ?_⟩
  · exact offsetOf_succ hpiece
  · conv_lhs => rw [← List.take_append_drop i (pieces policy filters), List.flatten_append,
      List.drop_eq_getElem_cons hlt, hget, List.flatten_cons]

theorem finish_eq (h : Generated policy b filters) (hkeys : b.keys = [])
    (hsize : b.result.length < 2 ^ 32) :
    b.finish policy = b.result ++ (((List.range (filters.length + 1)).map
      (offsetOf (pieces policy filters))).flatMap encodeFixed32 ++ [UInt8.ofNat filterBaseLg]) := by
  have hoffsets : b.filterOffsets =
      (List.range filters.length).map (offsetOf (pieces policy filters)) := by
    rw [h.offsets]
    refine List.map_congr_left fun i _ => Nat.mod_eq_of_lt ?_
    exact (offsetOf_le _ i).trans_lt (h.result ▸ hsize)
  unfold finish
  simp only [hkeys, List.isEmpty_nil, if_true]
  rw [List.range_succ, List.map_append, List.flatMap_append, List.map_singleton,
    offsetOf_of_length_le (by simp [pieces]), ← h.result, ← hoffsets]
  simp

theorem finish_generateFilter (hkeys : b.keys ≠ []) (h : Generated policy b filters) :
    b.finish policy = (b.generateFilter policy).finish policy := by
  have hnil := h.generateFilter.2
  unfold finish
  simp [hkeys, hnil]

section

variable (h : Generated policy b filters) (hkeys : b.keys = []) (hresult : b.result.length < 2 ^ 32)

include h hkeys hresult

theorem decodeFixed32_finish (hi : i ≤ filters.length) :
    decodeFixed32 ((b.finish policy).drop (b.result.length + i * 4)) =
      offsetOf (pieces policy filters) i := by
  set offsets := (List.range (filters.length + 1)).map (offsetOf (pieces policy filters)) with hoffsets
  have hilt : i < offsets.length := by
    rw [hoffsets, List.length_map, List.length_range]
    omega
  obtain ⟨rest, hrest⟩ := drop_flatMap_encodeFixed32 hilt [UInt8.ofNat filterBaseLg]
  have hget : offsets[i] = offsetOf (pieces policy filters) i := by simp [hoffsets]
  rw [finish_eq h hkeys hresult, ← List.drop_drop, List.drop_left, hrest, decodeFixed32_append, hget,
    Nat.mod_eq_of_lt ((offsetOf_le _ i).trans_lt (h.result ▸ hresult))]

theorem new_finish : FilterBlockReader.new (b.finish policy) =
    ⟨b.finish policy, b.result.length, filters.length, filterBaseLg⟩ := by
  have hfinish := finish_eq h hkeys hresult
  have hn : (b.finish policy).length = b.result.length + filters.length * 4 + 5 := by
    rw [hfinish]
    simp only [List.length_append, length_flatMap_encodeFixed32, List.length_map, List.length_range,
      List.length_singleton]
    omega
  have hbase : (b.finish policy).getD ((b.finish policy).length - 1) 0 =
      UInt8.ofNat filterBaseLg := by
    rw [hfinish, ← List.append_assoc]
    simp
  have hlast := decodeFixed32_finish h hkeys hresult le_rfl
  rw [offsetOf_of_length_le (by simp [pieces]), ← h.result] at hlast
  unfold FilterBlockReader.new
  dsimp only
  rw [if_neg (by omega), hbase, hn, show b.result.length + filters.length * 4 + 5 - 5 =
    b.result.length + filters.length * 4 by omega, hlast, if_neg (by omega)]
  congr 1
  omega

/-- **A policy without false negatives** on the keys that were added has none on the filter
block. -/
theorem keyMayMatch_generated (blockOffset : ℕ) (key : Slice)
    (hmatch : ∀ keys, filters[blockOffset / 2 ^ filterBaseLg]? = some keys →
      policy.keyMayMatch key (piece policy keys) = true) :
    (FilterBlockReader.new (b.finish policy)).keyMayMatch policy blockOffset key = true := by
  unfold FilterBlockReader.keyMayMatch
  rw [new_finish h hkeys hresult]
  dsimp only
  rw [Nat.shiftRight_eq_div_pow]
  by_cases hindex : blockOffset / 2 ^ filterBaseLg < filters.length
  · obtain ⟨keys, hget⟩ : ∃ keys, filters[blockOffset / 2 ^ filterBaseLg]? = some keys :=
      ⟨_, List.getElem?_eq_getElem hindex⟩
    obtain ⟨hnext, rest, hflatten⟩ := flatten_pieces policy hget
    have hlimit := decodeFixed32_finish h hkeys hresult (i := blockOffset / 2 ^ filterBaseLg + 1)
      hindex
    rw [Nat.succ_mul, ← Nat.add_assoc] at hlimit
    have hle := offsetOf_le (pieces policy filters) (blockOffset / 2 ^ filterBaseLg + 1)
    rw [← h.result] at hle
    have hfilter : ((b.finish policy).drop (offsetOf (pieces policy filters)
        (blockOffset / 2 ^ filterBaseLg))).take (piece policy keys).length = piece policy keys := by
      rw [finish_eq h hkeys hresult, h.result, hflatten, List.append_assoc, List.append_assoc]
      unfold offsetOf
      rw [List.drop_left, List.take_left]
    rw [if_pos hindex, decodeFixed32_finish h hkeys hresult hindex.le, hlimit,
      if_pos ⟨by omega, hle⟩, hnext, Nat.add_sub_cancel_left, hfilter]
    exact hmatch keys hget
  · rw [if_neg hindex]

end

/-! ## Which keys a filter has -/

/-- The calls for a data block: `StartBlock` with its offset, and `AddKey` for each of its keys. -/
def addBlock (policy : FilterPolicy) (b : FilterBlockBuilder) (block : ℕ × List Slice) :
    FilterBlockBuilder := block.2.foldl addKey (b.startBlock policy block.1)

/-- The calls for some data blocks. -/
def addBlocks (policy : FilterPolicy) (b : FilterBlockBuilder) (blocks : List (ℕ × List Slice)) :
    FilterBlockBuilder := blocks.foldl (addBlock policy) b

/-- The filters with the last one, as `Finish` writes them. -/
def finished (policy : FilterPolicy) (b : FilterBlockBuilder) : FilterBlockBuilder :=
  if b.keys.isEmpty then b else b.generateFilter policy

/-- The keys of some blocks, with the offset of their block. -/
def keysOfBlocks (blocks : List (ℕ × List Slice)) : List (ℕ × Slice) :=
  blocks.flatMap fun block => block.2.map fun key => (block.1, key)

/-- The keys of the blocks that start in a range of 2 KiB. -/
def keysIn (added : List (ℕ × Slice)) (i : ℕ) : List Slice :=
  (added.filter fun p => p.1 / 2 ^ filterBaseLg = i).map Prod.snd

theorem mem_keysIn (h : (offset, key) ∈ added) :
    key ∈ keysIn added (offset / 2 ^ filterBaseLg) :=
  List.mem_map.mpr ⟨(offset, key), List.mem_filter.mpr ⟨h, by simp⟩, rfl⟩

/-- **Filter `i` has the keys of the blocks that start in range `i`**, and the builder is at range
`n`. -/
structure Filed (policy : FilterPolicy) (b : FilterBlockBuilder) (n : ℕ)
    (added : List (ℕ × Slice)) : Prop where
  generated : Generated policy b ((List.range n).map (keysIn added))
  keys : b.keys = keysIn added n
  index_le : ∀ p ∈ added, p.1 / 2 ^ filterBaseLg ≤ n

theorem filed_new (policy : FilterPolicy) : Filed policy new 0 [] where
  generated := new_generated policy
  keys := rfl
  index_le := by simp

theorem Filed.generateFilter (h : Filed policy b n added) :
    Filed policy (b.generateFilter policy) (n + 1) added where
  generated := by
    have hnext := h.generated.generateFilter.1
    rw [h.keys] at hnext
    rw [List.range_succ, List.map_append, List.map_singleton]
    exact hnext
  keys := by
    have hnone : ∀ p ∈ added, ¬ p.1 / 2 ^ filterBaseLg = n + 1 := fun p hp => by
      have := h.index_le p hp
      omega
    rw [h.generated.generateFilter.2, keysIn, List.filter_eq_nil_iff.mpr (by simpa using hnone),
      List.map_nil]
  index_le := fun p hp => (h.index_le p hp).trans (Nat.le_succ n)

theorem Filed.startBlock (h : Filed policy b n added) (hle : n ≤ offset / 2 ^ filterBaseLg) :
    Filed policy (b.startBlock policy offset) (offset / 2 ^ filterBaseLg) added := by
  have hiterate : ∀ m,
      Filed policy ((FilterBlockBuilder.generateFilter policy)^[m] b) (n + m) added := by
    intro m
    induction m with
    | zero => exact h
    | succ m ih =>
      rw [Function.iterate_succ_apply']
      exact ih.generateFilter
  have hlen := h.generated.length
  rw [List.length_map, List.length_range] at hlen
  have hmove := hiterate (offset / 2 ^ filterBaseLg - n)
  rw [Nat.add_sub_cancel' hle] at hmove
  rw [FilterBlockBuilder.startBlock, hlen]
  exact hmove

theorem Filed.addKey (h : Filed policy b (offset / 2 ^ filterBaseLg) added) (key : Slice) :
    Filed policy (b.addKey key) (offset / 2 ^ filterBaseLg) (added ++ [(offset, key)]) where
  generated := by
    have hsame : (List.range (offset / 2 ^ filterBaseLg)).map (keysIn (added ++ [(offset, key)])) =
        (List.range (offset / 2 ^ filterBaseLg)).map (keysIn added) := by
      refine List.map_congr_left fun i hi => ?_
      have hne := (List.mem_range.mp hi).ne'
      rw [keysIn, keysIn, List.filter_append, List.filter_cons_of_neg (by simpa using hne),
        List.filter_nil, List.append_nil]
    rw [hsame]
    exact ⟨h.generated.result, h.generated.offsets⟩
  keys := by
    show b.keys ++ [key] = _
    rw [h.keys, keysIn, keysIn, List.filter_append, List.filter_cons_of_pos (by simp),
      List.filter_nil, List.map_append, List.map_singleton]
  index_le := by
    intro p hp
    rcases List.mem_append.mp hp with hp | hp
    · exact h.index_le p hp
    · rw [List.mem_singleton.mp hp]

theorem Filed.addKeys (h : Filed policy b (offset / 2 ^ filterBaseLg) added) (keys : List Slice) :
    Filed policy (keys.foldl FilterBlockBuilder.addKey b) (offset / 2 ^ filterBaseLg)
      (added ++ keys.map fun key => (offset, key)) := by
  induction keys generalizing b added with
  | nil => simpa using h
  | cons key keys ih => simpa using ih (h.addKey key)

/-- **The calls for data blocks at non-decreasing offsets.** -/
theorem Filed.addBlocks (h : Filed policy b n added) {blocks : List (ℕ × List Slice)}
    (hoffsets : blocks.Pairwise fun x y => x.1 ≤ y.1)
    (hle : ∀ block ∈ blocks, n ≤ block.1 / 2 ^ filterBaseLg) :
    ∃ n', Filed policy (b.addBlocks policy blocks) n' (added ++ keysOfBlocks blocks) := by
  induction blocks generalizing b n added with
  | nil => exact ⟨n, by simpa [FilterBlockBuilder.addBlocks, keysOfBlocks] using h⟩
  | cons block blocks ih =>
    obtain ⟨hfirst, hrest⟩ := List.pairwise_cons.mp hoffsets
    have hblock : Filed policy (b.addBlock policy block) (block.1 / 2 ^ filterBaseLg)
        (added ++ block.2.map fun key => (block.1, key)) :=
      (h.startBlock (hle block List.mem_cons_self)).addKeys block.2
    obtain ⟨n', hn'⟩ := ih hblock hrest fun block' hblock' =>
      Nat.div_le_div_right (hfirst block' hblock')
    exact ⟨n', by simpa [FilterBlockBuilder.addBlocks, keysOfBlocks] using hn'⟩

theorem length_result_le (policy : FilterPolicy) (b : FilterBlockBuilder) :
    (b.finished policy).result.length ≤ (b.finish policy).length := by
  unfold finish finished
  rw [List.length_append]
  exact Nat.le_add_right _ _

theorem finish_finished (h : Generated policy b filters) :
    b.finish policy = (b.finished policy).finish policy := by
  unfold finished
  split_ifs with hkeys
  · rfl
  · exact finish_generateFilter (by simpa using hkeys) h

/-- **A finished filter block matches** what the policy matches for the keys of a range. -/
theorem Filed.keyMayMatch (h : Filed policy b n added)
    (hsize : (b.finished policy).result.length < 2 ^ 32) {key' : Slice}
    (hadded : (offset, key) ∈ added) (hmatch : policy.keyMayMatch key'
      (policy.createFilter (keysIn added (offset / 2 ^ filterBaseLg))) = true) :
    (FilterBlockReader.new (b.finish policy)).keyMayMatch policy offset key' = true := by
  have hpiece : policy.keyMayMatch key' (piece policy (keysIn added (offset / 2 ^ filterBaseLg))) =
      true := by
    rw [piece, if_neg (by simpa using List.ne_nil_of_mem (mem_keysIn hadded))]
    exact hmatch
  obtain ⟨m, hfiled, hkeys⟩ : ∃ m, Filed policy (b.finished policy) m added ∧
      (b.finished policy).keys = [] := by
    unfold finished
    split_ifs with hempty
    · exact ⟨n, h, List.isEmpty_iff.mp hempty⟩
    · exact ⟨n + 1, h.generateFilter, h.generated.generateFilter.2⟩
  rw [finish_finished h.generated]
  refine keyMayMatch_generated hfiled.generated hkeys hsize offset key' fun keys hget => ?_
  obtain ⟨hlt, hkeys'⟩ := List.getElem?_eq_some_iff.mp hget
  rw [← hkeys', List.getElem_map, List.getElem_range]
  exact hpiece

end FilterBlockBuilder

end McfKv
