import McfKv.Db.Separator
import McfKv.Db.SkipListIterator
import McfKv.Db.Table

/-!
# The memtable (`db/memtable.cc`)

A memtable is a skip list of byte strings. Each holds an entry: the length of the internal key, the
key, the length of the value and the value. The comparator of the list decodes the internal keys.

The other modules take a memtable as a list of entries in order (`memTableAdd`, `memTableGet`).
`exists_addAll` says that the list of bytes is the encoding of that list, whatever heights the nodes
get; `get_eq` and `iterStep_simulates` say what lookups and iterators make of it. Lengths are stored
as 32-bit numbers. A longer value keeps its last bits of length only, and that is what `stored` says.
-/

namespace McfKv

open Coding Cursor

/-- The bytes that `MemTable::Add` allocates; `EncodeVarint32` takes a `uint32_t`. -/
def Entry.encode (e : Entry) : Slice :=
  encodeVarint32 ((e.userKey.length + 8) % 2 ^ 32) ++ e.userKey ++
    encodeFixed64 (packSequenceAndType e.sequence e.type) ++
    encodeVarint32 (e.value.length % 2 ^ 32) ++ e.value

/-- `LookupKey::memtable_key`. -/
def memtableKey (userKey : Slice) (seq : ℕ) : Slice :=
  encodeVarint32 ((userKey.length + 8) % 2 ^ 32) ++ userKey ++
    encodeFixed64 (packSequenceAndType seq .value)

/-- `class MemTable`: its `table_`. -/
abbrev MemTable := SkipList Slice

namespace MemTable

/-- The static `GetLengthPrefixedSlice`: the bytes at `data` are not corrupted, so that they have a
length in front. -/
def getLengthPrefixedSlice (data : Slice) : Slice :=
  match getVarint32 data with
  | some (len, p) => p.take len
  | none => []

/-- `MemTable::KeyComparator`. -/
def keyComparator (a b : Slice) : Ordering :=
  internalKeyCompare (getLengthPrefixedSlice a) (getLengthPrefixedSlice b)

/-- `EncodeKey`. -/
def encodeKey (target : Slice) : Slice := putVarint32 [] (target.length % 2 ^ 32) ++ target

/-- `MemTable::Add`, with the height that `RandomHeight` gives. -/
def add (table : MemTable) (e : Entry) (height : ℕ) : Option MemTable :=
  table.insert keyComparator e.encode height

/-- The memtable after calls of `Add`. -/
def addAll (adds : List (Entry × ℕ)) : Option MemTable :=
  Run.runFrom (fun table a => add table a.1 a.2) SkipList.new adds

/-- What `MemTable::Get` does with the entry that it found; `none` where it returns `false`. The
lengths are `uint32_t`. -/
def getEntry (entry userKey : Slice) : Option (Except Status Slice) :=
  (getVarint32 entry).bind fun (keyLength, keyPtr) =>
    if compareSlices (keyPtr.take ((keyLength + (2 ^ 32 - 8)) % 2 ^ 32)) userKey = .eq then
      match decodeFixed64 (keyPtr.drop (keyLength - 8)) &&& 0xff with
      | 1 => some (.ok (getLengthPrefixedSlice (keyPtr.drop keyLength)))
      | 0 => some (.error (.notFound ""))
      | _ => none
    else none

/-- `MemTable::Get`. -/
def get (table : MemTable) (userKey : Slice) (snapshot : ℕ) :
    Option (Option (Except Status Slice)) :=
  ((SkipList.iterStep keyComparator table none (.seek (memtableKey userKey snapshot))).bind
    table.read).map fun found => found.bind fun entry => getEntry entry userKey

/-- One call on `MemTableIterator`. -/
def iterStep (table : MemTable) (node : Option ℕ) (op : Cursor.Op Slice) : Option (Option ℕ) :=
  SkipList.iterStep keyComparator table node (op.map encodeKey)

/-- `MemTableIterator::value`. -/
def valueOf (entry : Slice) : Slice :=
  match getVarint32 entry with
  | some (len, p) => getLengthPrefixedSlice (p.drop len)
  | none => []

/-- `MemTableIterator::key` and `value`, or `none` where the iterator is not valid. -/
def current (table : MemTable) (node : Option ℕ) : Option (Option (Slice × Slice)) :=
  (table.read node).map fun found => found.map fun entry =>
    (getLengthPrefixedSlice entry, valueOf entry)

/-! ## Encoded entries -/

/-- The internal key has a 32-bit length. -/
def KeyFits (e : Entry) : Prop := e.userKey.length + 8 < 2 ^ 32

/-- The part of the value that its stored length covers. -/
def stored (e : Entry) : Entry := { e with value := e.value.take (e.value.length % 2 ^ 32) }

variable {e a b : Entry}

theorem stored_of_lt (h : e.value.length < 2 ^ 32) : stored e = e := by
  rw [stored, Nat.mod_eq_of_lt h, List.take_length]

/-- A length in front of its bytes, of which it covers the part that it can. -/
theorem getLengthPrefixedSlice_encodeVarint32 (value : Slice) :
    getLengthPrefixedSlice (encodeVarint32 (value.length % 2 ^ 32) ++ value) =
      value.take (value.length % 2 ^ 32) := by
  rw [getLengthPrefixedSlice, getVarint32_encodeVarint32 (Nat.mod_lt _ (by norm_num))]

theorem getVarint32_encode (h : KeyFits e) : getVarint32 e.encode = some (e.internalKey.length,
    e.internalKey ++ (encodeVarint32 (e.value.length % 2 ^ 32) ++ e.value)) := by
  have hsplit : e.encode = encodeVarint32 (e.userKey.length + 8) ++
      (e.internalKey ++ (encodeVarint32 (e.value.length % 2 ^ 32) ++ e.value)) := by
    rw [Entry.encode, Nat.mod_eq_of_lt h, Entry.internalKey, appendInternalKey]
    simp only [List.append_assoc]
  rw [hsplit, getVarint32_encodeVarint32 h, Entry.length_internalKey]

theorem key_encode (h : KeyFits e) : getLengthPrefixedSlice e.encode = e.internalKey := by
  rw [getLengthPrefixedSlice, getVarint32_encode h]
  exact List.take_left

theorem valueOf_encode (h : KeyFits e) : valueOf e.encode = (stored e).value := by
  rw [valueOf, getVarint32_encode h]
  dsimp only
  rw [List.drop_left, getLengthPrefixedSlice_encodeVarint32]
  rfl

theorem key_encodeKey {target : Slice} (h : target.length < 2 ^ 32) :
    getLengthPrefixedSlice (encodeKey target) = target := by
  rw [encodeKey, putVarint32, List.nil_append, getLengthPrefixedSlice_encodeVarint32,
    Nat.mod_eq_of_lt h, List.take_length]

theorem memtableKey_eq (userKey : Slice) (seq : ℕ) :
    memtableKey userKey seq = encodeKey (lookupKey userKey seq) := by
  simp [memtableKey, encodeKey, lookupKey, appendInternalKey, putVarint32]

theorem getEntry_encode (h : KeyFits e) (hseq : e.sequence ≤ maxSequenceNumber) (userKey : Slice) :
    getEntry e.encode userKey =
      if compareSlices e.userKey userKey = .eq then some (stored e).read else none := by
  have hlen : (e.internalKey.length + (2 ^ 32 - 8)) % 2 ^ 32 = e.userKey.length := by
    have hfit : e.userKey.length + 8 < 2 ^ 32 := h
    rw [Entry.length_internalKey]
    omega
  have hdrop : e.internalKey.length - 8 = e.userKey.length := by rw [Entry.length_internalKey]; omega
  have hkey : e.internalKey = e.userKey ++ encodeFixed64 (packSequenceAndType e.sequence e.type) := rfl
  have htag : packSequenceAndType e.sequence e.type % 2 ^ 64 &&& 0xff = e.type.code := by
    rw [packSequenceAndType_eq hseq, Nat.and_two_pow_sub_one_eq_mod _ 8]
    unfold maxSequenceNumber at hseq
    cases e.type <;> simp only [ValueType.code] <;> omega
  rw [getEntry, getVarint32_encode h, Option.bind_some]
  dsimp only
  rw [List.drop_left, getLengthPrefixedSlice_encodeVarint32, hlen, hdrop, hkey, List.append_assoc,
    List.take_left, List.drop_left, decodeFixed64_append, htag]
  unfold Entry.read stored
  cases e.type <;> rfl

/-! ## The contents -/

instance : Std.TransCmp keyComparator where
  eq_swap {_ _} := @Std.OrientedCmp.eq_swap _ internalKeyCompare _ _ _
  isLE_trans {_ _ _} := @Std.TransCmp.isLE_trans _ internalKeyCompare _ _ _ _

/-- The entries in order, as the other modules have a memtable. -/
def listing (adds : List (Entry × ℕ)) : List Entry := (adds.map Prod.fst).foldl memTableAdd []

theorem listing_perm (adds : List (Entry × ℕ)) : (listing adds).Perm (adds.map Prod.fst) := by
  have hfold : ∀ (entries table : List Entry),
      (entries.foldl memTableAdd table).Perm (entries ++ table) := by
    intro entries
    induction entries with
    | nil => exact fun table => List.Perm.refl _
    | cons e entries ih =>
      intro table
      refine (ih _).trans (((List.perm_orderedInsert _ e table).append_left entries).trans ?_)
      exact List.perm_middle
  simpa [listing] using hfold (adds.map Prod.fst) []

theorem listing_le (adds : List (Entry × ℕ)) : (listing adds).Pairwise Entry.Le := by
  have hfold : ∀ (entries table : List Entry), table.Pairwise Entry.Le →
      (entries.foldl memTableAdd table).Pairwise Entry.Le := by
    intro entries
    induction entries with
    | nil => exact fun table h => h
    | cons e entries ih => exact fun table h => ih _ (h.orderedInsert e table)
  exact hfold _ _ List.Pairwise.nil

/-- Calls of `Add` with distinct sequence numbers below `2^56`, heights that `RandomHeight` can give,
and keys that have a length. -/
structure Adds (adds : List (Entry × ℕ)) : Prop where
  heights : ∀ a ∈ adds, 0 < a.2 ∧ a.2 ≤ kMaxHeight
  distinct : (adds.map fun a => a.1.sequence).Nodup
  range : ∀ a ∈ adds, a.1.sequence ≤ maxSequenceNumber
  fits : ∀ a ∈ adds, KeyFits a.1

theorem keyComparator_encode (ha : KeyFits a) (hb : KeyFits b) :
    keyComparator a.encode b.encode = internalKeyCompare a.internalKey b.internalKey := by
  rw [keyComparator, key_encode ha, key_encode hb]

theorem internalKeyCompare_ne_eq (ha : a.sequence ≤ maxSequenceNumber)
    (hb : b.sequence ≤ maxSequenceNumber) (hne : a.sequence ≠ b.sequence) :
    internalKeyCompare a.internalKey b.internalKey ≠ .eq := by
  intro heq
  have hkeys := (internalKeyCompare_eq_iff (by rw [Entry.length_internalKey]; omega)
    (by rw [Entry.length_internalKey]; omega)).mp heq
  have hparse := congrArg parseInternalKey hkeys
  rw [Entry.internalKey, Entry.internalKey, parseInternalKey_append _ ha,
    parseInternalKey_append _ hb] at hparse
  simp only [Option.some.injEq, Prod.mk.injEq] at hparse
  exact hne hparse.2.1

section Contents

variable {adds : List (Entry × ℕ)}

theorem Adds.mem_listing (h : Adds adds) {e : Entry} (he : e ∈ listing adds) :
    e.sequence ≤ maxSequenceNumber ∧ KeyFits e := by
  obtain ⟨a, ha, rfl⟩ := List.mem_map.mp ((listing_perm adds).mem_iff.mp he)
  exact ⟨h.range a ha, h.fits a ha⟩

theorem Adds.sorted_listing (h : Adds adds) : Sorted (listing adds) :=
  ⟨listing_le adds, fun _ he => (h.mem_listing he).1⟩

/-- **The internal keys of the entries ascend.** -/
theorem Adds.listing_lt (h : Adds adds) :
    (listing adds).Pairwise fun a b => internalKeyCompare a.internalKey b.internalKey = .lt := by
  have hdistinct : (listing adds).Pairwise fun a b => a.sequence ≠ b.sequence := by
    have hnodup : ((listing adds).map Entry.sequence).Nodup := by
      refine ((listing_perm adds).map _).nodup_iff.mpr ?_
      simpa [Function.comp_def] using h.distinct
    exact List.pairwise_map.mp hnodup
  refine ((listing_le adds).and hdistinct).imp_of_mem fun {a b} ha hb hab => ?_
  have hne := internalKeyCompare_ne_eq (h.mem_listing ha).1 (h.mem_listing hb).1 hab.2
  have hle : internalKeyCompare a.internalKey b.internalKey ≠ .gt := hab.1
  cases hcmp : internalKeyCompare a.internalKey b.internalKey with
  | lt => rfl
  | eq => exact absurd hcmp hne
  | gt => exact absurd hcmp hle

/-- **Calls of `Add` return**, and the list holds the encodings of the entries in order. -/
theorem Adds.exists_addAll (h : Adds adds) :
    ∃ table ids, addAll adds = some table ∧ SkipList.Wf keyComparator table ids ∧
      table.keysOf (ids 0) = (listing adds).map Entry.encode := by
  obtain ⟨table, ids, hadd, hwf, hperm⟩ := (SkipList.new_wf keyComparator).insertAll_wf
    (adds.map fun a => (a.1.encode, a.2))
    (fun p hp => by
      obtain ⟨a, ha, rfl⟩ := List.mem_map.mp hp
      exact h.heights a ha)
    (by
      refine List.pairwise_map.mpr ((List.pairwise_map.mp h.distinct).imp_of_mem ?_)
      intro a b ha hb hne
      rw [keyComparator_encode (h.fits a ha) (h.fits b hb)]
      exact internalKeyCompare_ne_eq (h.range a ha) (h.range b hb) hne)
    fun _ _ k hk => by simp [SkipList.keysOf] at hk
  refine ⟨table, ids, ?_, hwf, ?_⟩
  · rw [SkipList.insertAll, Run.runFrom_map] at hadd
    exact hadd
  · have hkeys : (table.keysOf (ids 0)).Perm ((listing adds).map Entry.encode) := by
      refine hperm.trans ?_
      have hentries := ((listing_perm adds).map Entry.encode).symm
      simpa [SkipList.keysOf, Function.comp_def] using hentries
    have hlisting : ((listing adds).map Entry.encode).Pairwise
        fun a b => keyComparator a b = .lt := by
      refine List.pairwise_map.mpr (h.listing_lt.imp_of_mem fun {a b} ha hb hlt => ?_)
      rw [keyComparator_encode (h.mem_listing ha).2 (h.mem_listing hb).2, hlt]
    refine hkeys.eq_of_pairwise (fun a b _ _ hab hba => ?_) hwf.sorted hlisting
    exact absurd hba (Std.OrientedCmp.not_lt_of_lt hab)

/-! ## Lookups -/

variable {table : MemTable} {ids : ℕ → List ℕ}

/-- **`Get` reads the newest version that is not too new.** -/
theorem Adds.get_eq (h : Adds adds) (hwf : SkipList.Wf keyComparator table ids)
    (hkeys : table.keysOf (ids 0) = (listing adds).map Entry.encode) {userKey : Slice}
    (hkey : userKey.length + 8 < 2 ^ 32) {S : ℕ} (hS : S ≤ maxSequenceNumber) :
    get table userKey S =
      some ((findEntry (listing adds) userKey S).map fun e => (stored e).read) := by
  -- the search in the list of bytes is the search in the list of entries
  have hseek : ((listing adds).map Entry.encode).find?
      (fun k => keyComparator k (memtableKey userKey S) ≠ .lt) =
      (seek (listing adds) (lookupKey userKey S)).map Entry.encode := by
    have hlookup : (lookupKey userKey S).length < 2 ^ 32 := by
      rw [lookupKey, appendInternalKey, List.length_append, length_encodeFixed64]
      exact hkey
    have hagree : ∀ e ∈ listing adds, keyComparator e.encode (memtableKey userKey S) =
        internalKeyCompare e.internalKey (lookupKey userKey S) := fun e he => by
      rw [keyComparator, key_encode (h.mem_listing he).2, memtableKey_eq, key_encodeKey hlookup]
    rw [List.find?_map, seek]
    refine congrArg _ (find?_congr_of_mem fun e he => ?_)
    simp only [Function.comp_apply, hagree e he]
  have hread : (SkipList.iterStep keyComparator table none
      (.seek (memtableKey userKey S))).bind table.read =
      some ((seek (listing adds) (lookupKey userKey S)).map Entry.encode) := by
    have hanswer := hwf.answers.findGreaterOrEqual (memtableKey userKey S)
    rw [hkeys, hseek] at hanswer
    rw [SkipList.iterStep, Option.bind_map]
    exact hanswer
  rw [get, hread, Option.map_some, ← seek_filter h.sorted_listing.range hS]
  cases hfound : seek (listing adds) (lookupKey userKey S) with
  | none => rfl
  | some e =>
    obtain ⟨hseq, hfits⟩ := h.mem_listing (List.mem_of_find?_eq_some hfound)
    rw [Option.map_some, Option.bind_some, getEntry_encode hfits hseq]
    by_cases heq : compareSlices e.userKey userKey = .eq
    · simp [heq, Option.filter]
    · simp [heq, Option.filter]

/-! ## Iterators -/

/-- What an iterator shows of an entry. -/
def shown (e : Entry) : Slice × Slice := (e.internalKey, (stored e).value)

/-- What an iterator makes of an encoded entry. -/
def decoded (p : Slice × Unit) : Slice × Slice := (getLengthPrefixedSlice p.1, valueOf p.1)

/-- The node of the iterator is where the cursor is. -/
def At (table : MemTable) (ids : ℕ → List ℕ) (node : Option ℕ) (c : Option (Slice × Slice)) : Prop :=
  ∃ c', SkipList.At table ids node c' ∧ c = c'.map decoded

theorem current_of_at (hwf : SkipList.Wf keyComparator table ids) {node : Option ℕ}
    {c : Option (Slice × Slice)} (hat : At table ids node c) : current table node = some c := by
  obtain ⟨c', hat, rfl⟩ := hat
  rw [current, hwf.read_of_at hat, Option.map_some, Option.map_map]
  rfl

section

variable (h : Adds adds) (hwf : SkipList.Wf keyComparator table ids)
  (hkeys : table.keysOf (ids 0) = (listing adds).map Entry.encode)

include h hwf hkeys

/-- **Each call on the iterator does what it does on a cursor over the entries.** -/
theorem Adds.iterStep_simulates (node : Option ℕ) (c : Option (Slice × Slice))
    (op : Cursor.Op Slice) (hop : ∀ target, op = .seek target → target.length < 2 ^ 32)
    (hat : At table ids node c) : Option.Rel (At table ids) (iterStep table node op)
      (stepWith internalKeyCompare ((listing adds).map shown) c op) := by
  obtain ⟨c', hat, rfl⟩ := hat
  have hshown : (listing adds).map shown = (table.entries ids).map decoded := by
    rw [SkipList.entries, hkeys, List.map_map, List.map_map]
    refine List.map_congr_left fun e he => ?_
    have hfits := (h.mem_listing he).2
    simp [shown, decoded, key_encode hfits, valueOf_encode hfits]
  have hmap : stepWith internalKeyCompare ((table.entries ids).map decoded) (c'.map decoded) op =
      (stepWith keyComparator (table.entries ids) c' (op.map encodeKey)).map (Option.map decoded) := by
    refine stepWith_map (f := decoded) (fun _ _ => rfl) (fun target hseek p => ?_) _ _
    rw [keyComparator, key_encodeKey (hop target hseek)]
    rfl
  rw [hshown, hmap]
  have hstep := hwf.iterStep_simulates node c' (op.map encodeKey) hat
  rw [iterStep]
  generalize SkipList.iterStep keyComparator table node (op.map encodeKey) = next at hstep ⊢
  generalize stepWith keyComparator (table.entries ids) c' (op.map encodeKey) = next' at hstep ⊢
  cases hstep with
  | none => exact .none
  | some hstep => exact .some ⟨_, hstep, rfl⟩

/-- **Calls on a new iterator show what they show on a cursor over the entries.** -/
theorem Adds.iterator_run (ops : List (Cursor.Op Slice))
    (hops : ∀ op ∈ ops, ∀ target, op = .seek target → target.length < 2 ^ 32) :
    Option.Rel (fun node c => current table node = some c) (Run.runFrom (iterStep table) none ops)
      (Run.runFrom (stepWith internalKeyCompare ((listing adds).map shown)) none ops) := by
  have hstart : At table ids none none := ⟨none, ⟨ids 0, [], by simp, rfl, rfl⟩, rfl⟩
  exact Run.rel_mono (fun _ _ hat => current_of_at hwf hat) (Run.runFrom_rel_of_mem
    (fun node c op hop hat => h.iterStep_simulates hwf hkeys node c op hop hat) hstart hops)

theorem Adds.iterator_listing {j : ℕ} (hj : j ≤ (listing adds).length) :
    ∃ node, Run.runFrom (iterStep table) none (.seekToFirst :: List.replicate j .next) = some node ∧
      current table node = some ((listing adds)[j]?.map shown) := by
  have hasc : Ascending internalKeyCompare ((listing adds).map shown) :=
    List.pairwise_map.mpr h.listing_lt
  have hrun := h.iterator_run hwf hkeys (.seekToFirst :: List.replicate j .next)
    fun op hop target hseek => by
      subst hseek
      simp [List.mem_replicate] at hop
  rw [hasc.run_listing (by simpa using hj), List.getElem?_map] at hrun
  generalize Run.runFrom (iterStep table) none (.seekToFirst :: List.replicate j .next) = last at hrun
  cases hrun with
  | some hcurrent => exact ⟨_, rfl, hcurrent⟩

end

end Contents

/-- The answer of a lookup: what the entry for the key with the greatest sequence number up to `S`
holds, or nothing if there is no entry. -/
def IsNewest (entries : List Entry) (userKey : Slice) (S : ℕ) :
    Option (Except Status Slice) → Prop
  | some r => ∃ e, Versions.Sees Entry.userKey Entry.sequence entries userKey S e ∧ r = e.read
  | none => ∀ e ∈ entries, e.userKey = userKey → S < e.sequence

theorem Adds.isNewest {adds : List (Entry × ℕ)} (h : Adds adds) (userKey : Slice) (S : ℕ) :
    IsNewest (adds.map Prod.fst) userKey S
      ((findEntry (listing adds) userKey S).map Entry.read) := by
  have hmem : ∀ e, e ∈ listing adds ↔ e ∈ adds.map Prod.fst := fun e => (listing_perm adds).mem_iff
  cases hfind : findEntry (listing adds) userKey S with
  | none =>
    intro e he hkey
    exact (Versions.find_eq_none_iff h.sorted_listing.versions).mp hfind e ((hmem e).mpr he) hkey
  | some e =>
    have hsees := Versions.find_sees h.sorted_listing.versions hfind
    exact ⟨e, (Versions.sees_congr fun b _ _ => hmem b).mp hsees, rfl⟩

/-- **Lookups in a memtable return the newest visible entry**, and its iterator lists all entries in
the order of internal keys. Internal keys and values are shorter than `2^32` bytes. -/
theorem newest_visible {adds : List (Entry × ℕ)} (h : Adds adds)
    (hvalues : ∀ a ∈ adds, a.1.value.length < 2 ^ 32) :
    ∃ table, addAll adds = some table ∧
      (∀ userKey S, userKey.length + 8 < 2 ^ 32 → S ≤ maxSequenceNumber →
        ∃ found, get table userKey S = some found ∧
          IsNewest (adds.map Prod.fst) userKey S found) ∧
      ∃ entries : List Entry, entries.Perm (adds.map Prod.fst) ∧
        entries.Pairwise (fun a b => internalKeyCompare a.internalKey b.internalKey = .lt) ∧
        ∀ j ≤ entries.length, ∃ node,
          Run.runFrom (iterStep table) none (.seekToFirst :: List.replicate j .next) = some node ∧
            current table node = some (entries[j]?.map fun e => (e.internalKey, e.value)) := by
  obtain ⟨table, ids, hadd, hwf, hkeys⟩ := h.exists_addAll
  have hstored : ∀ e ∈ listing adds, stored e = e := fun e he => by
    obtain ⟨a, ha, rfl⟩ := List.mem_map.mp ((listing_perm adds).mem_iff.mp he)
    exact stored_of_lt (hvalues a ha)
  refine ⟨table, hadd, fun userKey S hkey hS => ⟨_, h.get_eq hwf hkeys hkey hS, ?_⟩,
    listing adds, listing_perm adds, h.listing_lt, fun j hj => ?_⟩
  · have hread : (findEntry (listing adds) userKey S).map (fun e => (stored e).read) =
        (findEntry (listing adds) userKey S).map Entry.read := by
      refine Option.map_congr fun e he => ?_
      rw [hstored e (Versions.find_sees h.sorted_listing.versions he).mem]
    rw [hread]
    exact h.isNewest userKey S
  · obtain ⟨node, hrun, hcurrent⟩ := h.iterator_listing hwf hkeys hj
    refine ⟨node, hrun, ?_⟩
    rw [hcurrent]
    refine congrArg some (Option.map_congr fun e he => ?_)
    rw [shown, hstored e (List.mem_of_getElem? he)]

/-- A value that is overwritten and a key that is deleted, added out of order. -/
def sampleAdds : List (Entry × ℕ) :=
  [(⟨[98], 3, .value, [7]⟩, 2), (⟨[97], 1, .value, [5]⟩, 1), (⟨[97], 2, .deletion, []⟩, 3)]

theorem adds_sampleAdds : Adds sampleAdds := by
  refine ⟨by decide, by decide, by decide, fun a ha => ?_⟩
  have hlen : ∀ a ∈ sampleAdds, a.1.userKey.length = 1 := by decide
  unfold KeyFits
  rw [hlen a ha]
  norm_num

theorem newest_visible_sampleAdds :
    ∃ table, addAll sampleAdds = some table ∧
      (∃ found, get table [97] 2 = some found ∧ IsNewest (sampleAdds.map Prod.fst) [97] 2 found) ∧
      ∃ node, Run.runFrom (iterStep table) none [.seekToFirst] = some node ∧
        ∃ c, current table node = some c := by
  obtain ⟨table, hadd, hget, entries, -, -, hlist⟩ := newest_visible adds_sampleAdds fun a ha => by
    have hlen : ∀ a ∈ sampleAdds, a.1.value.length < 2 := by decide
    exact (hlen a ha).trans (by norm_num)
  obtain ⟨node, hrun, hcurrent⟩ := hlist 0 (Nat.zero_le _)
  exact ⟨table, hadd, hget [97] 2 (by decide) (by decide), node, hrun, _, hcurrent⟩

/-- An entry with a value of `2^32` bytes is read with an empty value. -/
theorem get_of_length_eq {value : Slice} (hvalue : value.length = 2 ^ 32) :
    ∃ table, addAll [(⟨[97], 1, .value, value⟩, 1)] = some table ∧
      get table [97] 1 = some (some (.ok [])) := by
  have h : Adds [(⟨[97], 1, .value, value⟩, 1)] := by
    refine ⟨by simp [kMaxHeight], by simp, by simp [maxSequenceNumber], ?_⟩
    simp [KeyFits]
  obtain ⟨table, ids, hadd, hwf, hkeys⟩ := h.exists_addAll
  have hfind : findEntry (listing [(⟨[97], 1, .value, value⟩, 1)]) [97] 1 =
      some ⟨[97], 1, .value, value⟩ := by
    simp [listing, memTableAdd, findEntry, Versions.find, Option.filter]
  refine ⟨table, hadd, ?_⟩
  rw [h.get_eq hwf hkeys (by decide) (by decide), hfind, Option.map_some, stored, hvalue, Nat.mod_self]
  rfl

/-- **A value of `2^32` bytes is lost**: its length is stored as 0. -/
theorem get_hugeValue :
    let e : Entry := ⟨[97], 1, .value, List.replicate (2 ^ 32) 0⟩
    Versions.Sees Entry.userKey Entry.sequence [e] [97] 1 e ∧
      ∃ table found, addAll [(e, 1)] = some table ∧ get table [97] 1 = some (some found) ∧
        found ≠ e.read := by
  intro e
  have hlen : e.value.length = 2 ^ 32 := List.length_replicate
  obtain ⟨table, hadd, hget⟩ := get_of_length_eq hlen
  refine ⟨⟨List.mem_singleton_self _, rfl, le_rfl, fun b hb _ _ => ?_⟩, table, _, hadd, hget, ?_⟩
  · rw [List.mem_singleton.mp hb]
  · intro heq
    have hempty : e.value = [] := (Except.ok.inj heq).symm
    rw [hempty] at hlen
    exact absurd hlen (by norm_num)

end MemTable

end McfKv
