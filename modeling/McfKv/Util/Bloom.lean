import McfKv.Lib.Bitmap
import McfKv.Table.FilterBlock

/-!
# Bloom filters (`util/bloom.cc`, `util/hash.cc`)

A filter is a bitmap with the number of probes behind it. `CreateFilter` sets the bits that a key is
probed at, and `KeyMayMatch` computes the number of bits and of probes from the filter alone.

`bloom_keyMayMatch` says that a key of the list that a filter was created from matches it, and
`filterBlock_keyMayMatch` says it for a whole filter block. The number of keys is passed as an `int`:
with `2^31` keys or more it is not the length of the list.
-/

namespace McfKv

open Coding

namespace Bloom

/-- The constant `m` of `Hash`. -/
def hashMultiplier : ℕ := 0xc6a4a793

/-- The loop of `Hash` over four bytes at a time, and the remaining bytes. -/
def hashLoop : ℕ → Slice → ℕ
  | h, a :: b :: c :: d :: data =>
    let h := (h + decodeFixed32 [a, b, c, d]) * hashMultiplier % 2 ^ 32
    hashLoop (h ^^^ (h >>> 16)) data
  | h, [a, b, c] => finish (h + (c.toNat <<< 16) + (b.toNat <<< 8) + a.toNat)
  | h, [a, b] => finish (h + (b.toNat <<< 8) + a.toNat)
  | h, [a] => finish (h + a.toNat)
  | h, [] => h
where
  /-- The last lines of `case 1`. -/
  finish (h : ℕ) : ℕ :=
    let h := h * hashMultiplier % 2 ^ 32
    h ^^^ (h >>> 24)

/-- `Hash`. -/
def hash (data : Slice) (seed : ℕ) : ℕ :=
  hashLoop ((seed ^^^ (data.length * hashMultiplier)) % 2 ^ 32) data

/-- `BloomHash`. -/
def bloomHash (key : Slice) : ℕ := hash key 0xbc9f1d34

/-- The bit positions of some probes, from a hash value on. -/
def probesFrom (delta bits : ℕ) : ℕ → ℕ → List ℕ
  | 0, _ => []
  | k + 1, h => h % bits :: probesFrom delta bits k ((h + delta) % 2 ^ 32)

/-- The bit positions that a key is probed at; `delta` is the hash rotated right by 17 bits. -/
def probes (k bits : ℕ) (key : Slice) : List ℕ :=
  let h := bloomHash key
  probesFrom ((h >>> 17) ||| (h <<< 15) % 2 ^ 32) bits k h

/-- `k_`. Below 100 no product `bits_per_key * 0.69` is near an integer, and from 44 on `k_` is 30. -/
def numProbes (bitsPerKey : ℕ) : ℕ := min (max (bitsPerKey * 69 / 100) 1) 30

/-- The bytes of a filter for `n` keys, as `size_t`. -/
def numBytes (bitsPerKey n : ℕ) : ℕ := (max (n * bitsPerKey % 2 ^ 64) 64 + 7) / 8

/-- `BloomFilterPolicy::CreateFilter` for the first `n` of some keys. -/
def createFilterFor (bitsPerKey n : ℕ) (keys : List Slice) : Slice :=
  let bytes := numBytes bitsPerKey n
  (keys.take n).foldl
      (fun array key => Bitmap.setAll array (probes (numProbes bitsPerKey) (bytes * 8) key))
      (List.replicate bytes 0) ++
    [UInt8.ofNat (numProbes bitsPerKey)]

/-- `BloomFilterPolicy::CreateFilter`, called with the length of the list as an `int`. If that is
negative the filter is too large to allocate, and there is none. -/
def createFilter (bitsPerKey : ℕ) (keys : List Slice) : Slice :=
  let n := keys.length % 2 ^ 32
  if 2 ^ 31 ≤ n then [] else createFilterFor bitsPerKey n keys

/-- `BloomFilterPolicy::KeyMayMatch`. -/
def keyMayMatch (key filter : Slice) : Bool :=
  let len := filter.length
  if len < 2 then false
  else
    let k := (filter.getD (len - 1) 0).toNat
    if 30 < k then true else (probes k ((len - 1) * 8) key).all (Bitmap.test filter)

/-- `class BloomFilterPolicy`. -/
def policy (bitsPerKey : ℕ) : FilterPolicy where
  name := "leveldb.BuiltinBloomFilter2".toUTF8.toList
  createFilter := createFilter bitsPerKey
  keyMayMatch := keyMayMatch

/-! ## One filter -/

variable {i : ℕ} {keys : List Slice} {key : Slice}

theorem probesFrom_lt {delta bits k h : ℕ} (hbits : 0 < bits) (hi : i ∈ probesFrom delta bits k h) :
    i < bits := by
  induction k generalizing h with
  | zero => simp [probesFrom] at hi
  | succ k ih =>
    rcases List.mem_cons.mp hi with rfl | hi
    · exact Nat.mod_lt _ hbits
    · exact ih hi

theorem test_foldl_setAll {positions : Slice → List ℕ} {array : Slice}
    (hpositions : ∀ key, ∀ i ∈ positions key, i < 8 * array.length) :
    (keys.foldl (fun array key => Bitmap.setAll array (positions key)) array).length = array.length ∧
      (Bitmap.test array i ∨ (∃ key ∈ keys, i ∈ positions key) →
        Bitmap.test (keys.foldl (fun array key => Bitmap.setAll array (positions key)) array) i) := by
  induction keys generalizing array with
  | nil => simp
  | cons key keys ih =>
    have hlength : (Bitmap.setAll array (positions key)).length = array.length :=
      Bitmap.length_setAll
    obtain ⟨hlen, htest⟩ := @ih (Bitmap.setAll array (positions key)) (by rwa [hlength])
    refine ⟨hlen.trans hlength, fun h => htest ?_⟩
    rw [Bitmap.test_setAll (hpositions key)]
    rcases h with h | ⟨key', hkey', hi⟩
    · exact .inl (by simp [h])
    · rcases List.mem_cons.mp hkey' with rfl | hkey'
      · exact .inl (by simp [hi])
      · exact .inr ⟨key', hkey', hi⟩

theorem numProbes_le (bitsPerKey : ℕ) : numProbes bitsPerKey ≤ 30 := Nat.min_le_right _ _

theorem numBytes_pos (bitsPerKey n : ℕ) : 8 ≤ numBytes bitsPerKey n := by
  unfold numBytes
  omega

/-- **A key that a filter was created for matches it.** The reader finds the number of bits and of
probes in the filter. -/
theorem keyMayMatch_createFilterFor (bitsPerKey n : ℕ) (hkey : key ∈ keys.take n) :
    keyMayMatch key (createFilterFor bitsPerKey n keys) = true := by
  have hpos := numBytes_pos bitsPerKey n
  have hpositions : ∀ key, ∀ i ∈ probes (numProbes bitsPerKey) (numBytes bitsPerKey n * 8) key,
      i < 8 * (List.replicate (numBytes bitsPerKey n) (0 : UInt8)).length := fun key i hi => by
    have := probesFrom_lt (by omega) hi
    rw [List.length_replicate]
    omega
  obtain ⟨array, harray⟩ : ∃ array, array = (keys.take n).foldl (fun array key => Bitmap.setAll array
      (probes (numProbes bitsPerKey) (numBytes bitsPerKey n * 8) key))
      (List.replicate (numBytes bitsPerKey n) 0) := ⟨_, rfl⟩
  have hlength : array.length = numBytes bitsPerKey n := by
    rw [harray, (test_foldl_setAll hpositions (i := 0)).1, List.length_replicate]
  have hset : ∀ i ∈ probes (numProbes bitsPerKey) (numBytes bitsPerKey n * 8) key,
      Bitmap.test array i = true := fun i hi => by
    rw [harray]
    exact (test_foldl_setAll hpositions).2 (.inr ⟨key, hkey, hi⟩)
  have hfilter : createFilterFor bitsPerKey n keys = array ++ [UInt8.ofNat (numProbes bitsPerKey)] := by
    rw [harray]
    rfl
  have hlast : (array ++ [UInt8.ofNat (numProbes bitsPerKey)]).getD array.length 0 =
      UInt8.ofNat (numProbes bitsPerKey) := by simp
  have hk : (UInt8.ofNat (numProbes bitsPerKey)).toNat = numProbes bitsPerKey :=
    toNat_ofNat_of_lt ((numProbes_le bitsPerKey).trans_lt (by norm_num))
  have hprobes := numProbes_le bitsPerKey
  unfold keyMayMatch
  rw [hfilter]
  dsimp only
  rw [List.length_append, List.length_singleton, Nat.add_sub_cancel, hlast, hk, hlength,
    if_neg (by omega), if_neg (by omega), List.all_eq_true]
  intro i hi
  have hlt := hpositions key i hi
  rw [List.length_replicate] at hlt
  rw [Bitmap.test_append (by omega)]
  exact hset i hi

/-- **No false negatives**, for fewer than `2^31` keys. -/
theorem bloom_keyMayMatch (bitsPerKey : ℕ) (hcount : keys.length < 2 ^ 31) (hkey : key ∈ keys) :
    (policy bitsPerKey).keyMayMatch key ((policy bitsPerKey).createFilter keys) = true := by
  have hmod : keys.length % 2 ^ 32 = keys.length := Nat.mod_eq_of_lt (by omega)
  show keyMayMatch key (createFilter bitsPerKey keys) = true
  unfold createFilter
  rw [hmod, if_neg (by omega)]
  exact keyMayMatch_createFilterFor bitsPerKey _ (by rwa [List.take_length])

/-! ## A filter block -/

open FilterBlockBuilder

/-- **Filters have no false negatives.** Data blocks at non-decreasing offsets, with fewer than `2^31`
keys in each range of 2 KiB and filters of fewer than `2^32` bytes together: an internal key matches at
the offset of a block if the block has a key with the same user key. -/
theorem filterBlock_keyMayMatch (bitsPerKey : ℕ) {blocks : List (ℕ × List Slice)}
    (hoffsets : blocks.Pairwise fun x y => x.1 ≤ y.1)
    (hcount : ∀ i, (keysIn (keysOfBlocks blocks) i).length < 2 ^ 31)
    (hsize : ((new.addBlocks (policy bitsPerKey).internal blocks).finished
      (policy bitsPerKey).internal).result.length < 2 ^ 32)
    {block : ℕ × List Slice} (hblock : block ∈ blocks) {key : Slice} (hkey : key ∈ block.2)
    {key' : Slice} (hsame : extractUserKey key' = extractUserKey key) :
    (FilterBlockReader.new ((new.addBlocks (policy bitsPerKey).internal blocks).finish
      (policy bitsPerKey).internal)).keyMayMatch (policy bitsPerKey).internal block.1 key' = true := by
  obtain ⟨n, hfiled⟩ := (filed_new (policy bitsPerKey).internal).addBlocks hoffsets
    fun _ _ => Nat.zero_le _
  rw [List.nil_append] at hfiled
  have hadded : (block.1, key) ∈ keysOfBlocks blocks :=
    List.mem_flatMap.mpr ⟨block, hblock, List.mem_map.mpr ⟨key, hkey, rfl⟩⟩
  have hmem : key ∈ keysIn (keysOfBlocks blocks) (block.1 / 2 ^ filterBaseLg) :=
    List.mem_map.mpr ⟨(block.1, key), List.mem_filter.mpr ⟨hadded, by simp⟩, rfl⟩
  refine hfiled.keyMayMatch hsize hadded ?_
  show (policy bitsPerKey).keyMayMatch (extractUserKey key') ((policy bitsPerKey).createFilter
    ((keysIn (keysOfBlocks blocks) (block.1 / 2 ^ filterBaseLg)).map extractUserKey)) = true
  rw [hsame]
  exact bloom_keyMayMatch bitsPerKey (by rw [List.length_map]; exact hcount _)
    (List.mem_map_of_mem hmem)

/-- Two blocks in the first range and one behind it. -/
def threeBlocks : List (ℕ × List Slice) :=
  [(0, [appendInternalKey [97] 1 .value, appendInternalKey [98] 2 .value]),
    (1000, [appendInternalKey [99] 3 .deletion]), (5000, [appendInternalKey [100] 4 .value])]

theorem filterBlock_keyMayMatch_threeBlocks :
    (FilterBlockReader.new ((new.addBlocks (policy 10).internal threeBlocks).finish
      (policy 10).internal)).keyMayMatch (policy 10).internal 1000
        (appendInternalKey [99] 7 .value) = true := by
  refine @filterBlock_keyMayMatch 10 threeBlocks (by decide) (fun i => ?_) (by decide +kernel)
    (1000, [appendInternalKey [99] 3 .deletion]) (by decide) _ List.mem_cons_self _ (by decide)
  have hle : (keysIn (keysOfBlocks threeBlocks) i).length ≤ (keysOfBlocks threeBlocks).length := by
    rw [keysIn, List.length_map]
    exact List.length_filter_le _ _
  have htotal : (keysOfBlocks threeBlocks).length = 4 := by decide
  omega

/-- The filter block of one block with `2^32` keys: the filter has no bits. -/
theorem finish_of_length_eq (hlen : keys.length = 2 ^ 32) :
    (new.addBlocks (policy 10).internal [(0, keys)]).finish (policy 10).internal =
      [0, 0, 0, 0, 0, 0, 0, 0, 6] ++ [0, 0, 0, 0] ++ [9, 0, 0, 0] ++ [11] := by
  have hfold : ∀ (keys : List Slice) (b : FilterBlockBuilder),
      keys.foldl addKey b = { b with keys := b.keys ++ keys } := by
    intro keys
    induction keys with
    | nil => simp
    | cons key keys ih => simp [ih, addKey]
  have hbuilder : new.addBlocks (policy 10).internal [(0, keys)] = ⟨keys, [], []⟩ := by
    show keys.foldl addKey (new.startBlock (policy 10).internal 0) = _
    rw [show new.startBlock (policy 10).internal 0 = new from rfl, hfold]
    rfl
  have hne : keys.isEmpty = false := by
    cases keys with
    | nil => simp at hlen
    | cons key keys => rfl
  have hfilter : (policy 10).internal.createFilter keys = [0, 0, 0, 0, 0, 0, 0, 0, 6] := by
    show createFilter 10 (keys.map extractUserKey) = _
    unfold createFilter
    rw [List.length_map, hlen, Nat.mod_self]
    rfl
  rw [hbuilder]
  unfold finish generateFilter
  simp only [hne, Bool.false_eq_true, if_false, hfilter]
  decide

/-- **The keys of a filter with `2^32` keys do not match**: the number of keys is passed as 0. -/
theorem filterBlock_hugeCount :
    let key := appendInternalKey [97] 1 .value
    let keys := List.replicate (2 ^ 32) key
    key ∈ keys ∧
      (FilterBlockReader.new ((new.addBlocks (policy 10).internal [(0, keys)]).finish
        (policy 10).internal)).keyMayMatch (policy 10).internal 0 key = false := by
  intro key keys
  refine ⟨List.mem_replicate.mpr ⟨by norm_num, rfl⟩, ?_⟩
  rw [finish_of_length_eq List.length_replicate]
  decide +kernel

end Bloom

end McfKv
