import McfKv.Db.DbFormat

/-!
# Blocks (`table/block_builder.cc`, `table/block.cc`)

A block holds entries in order. A key is stored without the bytes that it shares with the key
before it, except at restart points, where it is stored in full. The offsets of the restart
points stand at the end of the block, and their number behind them. All lengths and offsets
of the format have 32 bits.

This module has the builder, and the parts of `Block` that all calls of its iterator share; the calls
are in `McfKv.Table.BlockIterator`. `Stores` says what the buffer of a builder holds: the pieces of
the entries, one after the other, and restart points at the start of pieces that can be decoded
without the key before them. `Finished` adds that the block has fewer than `2^32` bytes, so that no
offset in it is truncated.
-/

namespace McfKv

open Coding

/-! ## `BlockBuilder` -/

/-- `class BlockBuilder`. -/
structure BlockBuilder where
  buffer : Slice
  restarts : List ℕ
  counter : ℕ
  lastKey : Slice
deriving DecidableEq, Repr

namespace BlockBuilder

/-- `BlockBuilder::Reset`: the first restart point is at offset 0. -/
def new : BlockBuilder := ⟨[], [0], 0, []⟩

/-- `BlockBuilder::empty`. -/
def empty (b : BlockBuilder) : Bool := b.buffer.isEmpty

/-- `BlockBuilder::CurrentSizeEstimate`. -/
def currentSizeEstimate (b : BlockBuilder) : ℕ := b.buffer.length + b.restarts.length * 4 + 4

/-- The loop of `Add` that counts the bytes shared with the previous key. -/
def sharedLength : Slice → Slice → ℕ
  | a :: as, b :: bs => if a = b then sharedLength as bs + 1 else 0
  | _, _ => 0

/-- The three lengths in front of an entry. -/
def entryHeader (shared nonShared valueSize : ℕ) : Slice :=
  encodeVarint32 (shared % 2 ^ 32) ++
    (encodeVarint32 (nonShared % 2 ^ 32) ++ encodeVarint32 (valueSize % 2 ^ 32))

/-- `BlockBuilder::Add`. -/
def add (interval : ℕ) (b : BlockBuilder) (key value : Slice) : BlockBuilder :=
  let compress := b.counter < interval
  let shared := if compress then sharedLength b.lastKey key else 0
  let delta := key.drop shared
  { buffer := b.buffer ++ (entryHeader shared delta.length value.length ++ (delta ++ value))
    restarts := if compress then b.restarts else b.restarts ++ [b.buffer.length % 2 ^ 32]
    counter := (if compress then b.counter else 0) + 1
    lastKey := b.lastKey.take shared ++ delta }

/-- `BlockBuilder::Finish`. -/
def finish (b : BlockBuilder) : Slice :=
  b.buffer ++ (b.restarts.flatMap encodeFixed32 ++ encodeFixed32 b.restarts.length)

/-- The block of some entries. -/
def addAll (interval : ℕ) (b : BlockBuilder) (entries : List (Slice × Slice)) : BlockBuilder :=
  entries.foldl (fun b e => b.add interval e.1 e.2) b

end BlockBuilder

/-! ## `Block` -/

/-- The three lengths of an entry, by the general path of `DecodeEntry`. -/
def decodeVarints (p : Slice) : Option ((ℕ × ℕ × ℕ) × Slice) :=
  (getVarint32 p).bind fun (shared, p) =>
    (getVarint32 p).bind fun (nonShared, p) =>
      (getVarint32 p).map fun (valueLength, p) => ((shared, nonShared, valueLength), p)

/-- The lengths of an entry, with the fast path for lengths of one byte. -/
def decodeLengths : Slice → Option ((ℕ × ℕ × ℕ) × Slice)
  | a :: b :: c :: rest =>
    if (a.toNat ||| b.toNat ||| c.toNat) < 128 then some ((a.toNat, b.toNat, c.toNat), rest)
    else decodeVarints (a :: b :: c :: rest)
  | _ => none

/-- `DecodeEntry` on the bytes up to the limit: the lengths, and the bytes from the key delta
on. -/
def decodeEntry (p : Slice) : Option ((ℕ × ℕ × ℕ) × Slice) :=
  (decodeLengths p).bind fun ((shared, nonShared, valueLength), rest) =>
    if rest.length % 2 ^ 32 < (nonShared + valueLength) % 2 ^ 32 then none
    else some ((shared, nonShared, valueLength), rest)

/-- `class Block`: the contents, `size_` (0 marks an error) and `restart_offset_`. -/
structure Block where
  data : Slice
  size : ℕ
  restartOffset : ℕ
deriving DecidableEq, Repr

/-- `class Block::Iter`. The value is a range of the contents. -/
structure Block.Iter where
  current : ℕ
  restartIndex : ℕ
  key : Slice
  valueOffset : ℕ
  valueSize : ℕ
  status : Status
deriving DecidableEq, Repr

namespace Block

/-- `Block::NumRestarts`, for contents of at least four bytes. -/
def numRestarts (data : Slice) : ℕ := decodeFixed32 (data.drop (data.length - 4))

/-- `Block::Block`. -/
def new (contents : Slice) : Block :=
  if contents.length < 4 then ⟨contents, 0, 0⟩
  else if (contents.length - 4) / 4 < numRestarts contents then ⟨contents, 0, 0⟩
  else ⟨contents, contents.length, (contents.length - (1 + numRestarts contents) * 4) % 2 ^ 32⟩

/-- `GetRestartPoint`. -/
def getRestartPoint (b : Block) (index : ℕ) : ℕ :=
  decodeFixed32 (b.data.drop (b.restartOffset + index * 4))

/-- The bytes of the entries, from an offset on. -/
def entriesFrom (b : Block) (offset : ℕ) : Slice := (b.data.take b.restartOffset).drop offset

/-- `Iter::value`. -/
def value (b : Block) (it : Iter) : Slice := (b.data.drop it.valueOffset).take it.valueSize

/-- `Iter::Valid`. -/
def valid (b : Block) (it : Iter) : Bool := it.current < b.restartOffset

/-- A new iterator. -/
def iter (b : Block) (num : ℕ) : Iter := ⟨b.restartOffset, num, [], 0, 0, .ok⟩

/-- `CorruptionError`. -/
def corruptionError (b : Block) (num : ℕ) : Iter :=
  ⟨b.restartOffset, num, [], 0, 0, .corruption "bad entry in block" ""⟩

/-- `SeekToRestartPoint`. -/
def seekToRestartPoint (b : Block) (it : Iter) (index : ℕ) : Iter :=
  { it with
    key := []
    restartIndex := index
    valueOffset := b.getRestartPoint index
    valueSize := 0 }

/-- The loop at the end of `ParseNextKey`. -/
def advanceRestart (b : Block) (num current : ℕ) : ℕ → ℕ → ℕ
  | 0, index => index
  | fuel + 1, index =>
    if index + 1 < num ∧ b.getRestartPoint (index + 1) < current then
      advanceRestart b num current fuel (index + 1)
    else index

/-- `ParseNextKey`. -/
def parseNextKey (b : Block) (num : ℕ) (it : Iter) : Bool × Iter :=
  let current := (it.valueOffset + it.valueSize) % 2 ^ 32
  if b.restartOffset ≤ current then
    (false, { it with current := b.restartOffset, restartIndex := num })
  else
    match decodeEntry (b.entriesFrom current) with
    | none => (false, b.corruptionError num)
    | some ((shared, nonShared, valueLength), rest) =>
      if it.key.length < shared then (false, b.corruptionError num)
      else
        (true,
          { it with
            current := current
            key := it.key.take shared ++ rest.take nonShared
            -- the value stands behind the key delta
            valueOffset := b.restartOffset - rest.length + nonShared
            valueSize := valueLength
            restartIndex := b.advanceRestart num current num it.restartIndex })

end Block

/-! ## One entry -/

/-- The fast path agrees with the general one. -/
theorem decodeLengths_eq {p : Slice} (h : 3 ≤ p.length) : decodeLengths p = decodeVarints p := by
  match p, h with
  | a :: b :: c :: rest, _ =>
    simp only [decodeLengths]
    split_ifs with hfast
    · have hc : c.toNat < 128 := Nat.right_le_or.trans_lt hfast
      have hab : (a.toNat ||| b.toNat) < 128 := Nat.left_le_or.trans_lt hfast
      have ha : a.toNat < 128 := Nat.left_le_or.trans_lt hab
      have hb : b.toNat < 128 := Nat.right_le_or.trans_lt hab
      simp [decodeVarints, getVarint32, and_128_last ha, and_128_last hb, and_128_last hc]
    · rfl

theorem length_encodeVarint32_pos (v : ℕ) : 0 < (encodeVarint32 v).length := by
  unfold encodeVarint32
  split_ifs <;> simp

theorem length_encodeVarint32_le (v : ℕ) : (encodeVarint32 v).length ≤ 5 := by
  unfold encodeVarint32
  split_ifs <;> simp

theorem decodeEntry_entryHeader {shared nonShared valueSize : ℕ} {body : Slice}
    (hshared : shared < 2 ^ 32) (hbody : body.length < 2 ^ 32)
    (hlen : nonShared + valueSize ≤ body.length) :
    decodeEntry (BlockBuilder.entryHeader shared nonShared valueSize ++ body) =
      some ((shared, nonShared, valueSize), body) := by
  have hpos : 3 ≤ (BlockBuilder.entryHeader shared nonShared valueSize ++ body).length := by
    have h1 := length_encodeVarint32_pos (shared % 2 ^ 32)
    have h2 := length_encodeVarint32_pos (nonShared % 2 ^ 32)
    have h3 := length_encodeVarint32_pos (valueSize % 2 ^ 32)
    simp only [BlockBuilder.entryHeader, List.length_append]
    omega
  unfold decodeEntry
  rw [decodeLengths_eq hpos]
  have hvarints : decodeVarints (BlockBuilder.entryHeader shared nonShared valueSize ++ body) =
      some ((shared, nonShared, valueSize), body) := by
    unfold decodeVarints BlockBuilder.entryHeader
    rw [Nat.mod_eq_of_lt hshared, Nat.mod_eq_of_lt (show nonShared < 2 ^ 32 by omega),
      Nat.mod_eq_of_lt (show valueSize < 2 ^ 32 by omega), List.append_assoc, List.append_assoc,
      getVarint32_encodeVarint32 hshared, Option.bind_some]
    dsimp only
    rw [getVarint32_encodeVarint32 (by omega), Option.bind_some]
    dsimp only
    rw [getVarint32_encodeVarint32 (by omega), Option.map_some]
  rw [hvarints, Option.bind_some]
  dsimp only
  rw [if_neg (by rw [Nat.mod_eq_of_lt hbody]; omega)]

theorem take_sharedLength (a b : Slice) :
    a.take (BlockBuilder.sharedLength a b) = b.take (BlockBuilder.sharedLength a b) := by
  induction a generalizing b with
  | nil => simp [BlockBuilder.sharedLength]
  | cons x as ih =>
    cases b with
    | nil => simp [BlockBuilder.sharedLength]
    | cons y bs =>
      unfold BlockBuilder.sharedLength
      split_ifs with h
      · simp [h, ih bs]
      · simp

theorem sharedLength_le (a b : Slice) : BlockBuilder.sharedLength a b ≤ a.length := by
  induction a generalizing b with
  | nil => simp [BlockBuilder.sharedLength]
  | cons x as ih =>
    cases b with
    | nil => simp [BlockBuilder.sharedLength]
    | cons y bs =>
      unfold BlockBuilder.sharedLength
      split_ifs
      · simpa using ih bs
      · simp

/-- The key after some entries. -/
def lastKeyOf (prev : Slice) (entries : List (Slice × Slice)) : Slice :=
  (entries.getLast?.map Prod.fst).getD prev

theorem lastKeyOf_cons (prev : Slice) (e : Slice × Slice) (entries : List (Slice × Slice)) :
    lastKeyOf prev (e :: entries) = lastKeyOf e.1 entries := by
  unfold lastKeyOf
  cases entries with
  | nil => rfl
  | cons e' entries => simp [List.getLast?_cons]

variable {prev key : Slice} {entries : List (Slice × Slice)} {n offset : ℕ} {pieces : List Slice}

theorem lastKeyOf_drop (h : n < entries.length) (prev : Slice) :
    lastKeyOf prev (entries.drop n) = lastKeyOf prev entries := by
  unfold lastKeyOf
  rw [List.getLast?_drop, if_neg (by omega)]

/-! ## The pieces of a block -/

/-- The bytes of each of the entries, after the key `prev`. -/
inductive Pieces : Slice → List (Slice × Slice) → List Slice → Prop
  | nil (prev : Slice) : Pieces prev [] []
  | cons {prev key value : Slice} {entries : List (Slice × Slice)} {pieces : List Slice} (shared : ℕ)
      (hshared : shared ≤ prev.length) (htake : prev.take shared = key.take shared)
      (hrest : Pieces key entries pieces) :
      Pieces prev ((key, value) :: entries)
        ((BlockBuilder.entryHeader shared (key.drop shared).length value.length ++
          (key.drop shared ++ value)) :: pieces)

section

variable (h : Pieces prev entries pieces)

include h

theorem Pieces.length_eq : pieces.length = entries.length := by
  induction h with
  | nil => rfl
  | cons _ _ _ _ ih => rw [List.length_cons, List.length_cons, ih]

theorem Pieces.ne_nil : ∀ piece ∈ pieces, piece ≠ [] := by
  induction h with
  | nil => simp
  | cons shared _ _ _ ih =>
    intro piece hpiece
    rcases List.mem_cons.mp hpiece with rfl | hpiece
    · have hpos := length_encodeVarint32_pos (shared % 2 ^ 32)
      intro hnil
      have hlen := congrArg List.length hnil
      simp only [BlockBuilder.entryHeader, List.length_append, List.length_nil] at hlen
      omega
    · exact ih piece hpiece

theorem Pieces.append {value : Slice} (shared : ℕ)
    (hshared : shared ≤ (lastKeyOf prev entries).length)
    (htake : (lastKeyOf prev entries).take shared = key.take shared) :
    Pieces prev (entries ++ [(key, value)]) (pieces ++
      [BlockBuilder.entryHeader shared (key.drop shared).length value.length ++
        (key.drop shared ++ value)]) := by
  induction h with
  | nil prev => exact .cons shared hshared htake (.nil key)
  | cons shared' hshared' htake' _ ih =>
    rw [lastKeyOf_cons] at hshared htake
    exact .cons shared' hshared' htake' (ih hshared htake)

end

/-- An offset, with 32 bits, at the start of a piece that does not depend on the key before it. -/
def PieceAt (entries : List (Slice × Slice)) (pieces : List Slice) (offset n : ℕ) : Prop :=
  (n < entries.length ∨ entries = [] ∧ n = 0) ∧ offset = (pieces.take n).flatten.length % 2 ^ 32 ∧
    Pieces [] (entries.drop n) (pieces.drop n)

theorem PieceAt.append {value : Slice} (h : PieceAt entries pieces offset n)
    (hlength : pieces.length = entries.length) (shared : ℕ)
    (hshared : shared ≤ (lastKeyOf [] entries).length)
    (htake : (lastKeyOf [] entries).take shared = key.take shared) :
    PieceAt (entries ++ [(key, value)]) (pieces ++
      [BlockBuilder.entryHeader shared (key.drop shared).length value.length ++
        (key.drop shared ++ value)]) offset n := by
  obtain ⟨hn, hoffset, hpieces⟩ := h
  have hlast : lastKeyOf [] (entries.drop n) = lastKeyOf [] entries := by
    rcases hn with hn | ⟨rfl, -⟩
    · exact lastKeyOf_drop hn []
    · simp
  have hle : n ≤ entries.length := by
    rcases hn with hn | ⟨-, rfl⟩
    · exact hn.le
    · exact Nat.zero_le _
  refine ⟨.inl (by rw [List.length_append]; exact Nat.lt_succ_of_le hle), ?_, ?_⟩
  · rw [List.take_append_of_le_length (by omega), hoffset]
  · rw [List.drop_append_of_le_length hle, List.drop_append_of_le_length (by omega)]
    exact hpieces.append shared (hlast ▸ hshared) (hlast ▸ htake)

/-- **The pieces of a block builder with these entries.** -/
structure BlockBuilder.Stores (b : BlockBuilder) (entries : List (Slice × Slice))
    (pieces : List Slice) : Prop where
  all : Pieces [] entries pieces
  buffer : b.buffer = pieces.flatten
  lastKey : b.lastKey = lastKeyOf [] entries
  first : ∃ restarts, b.restarts = 0 :: restarts
  points : ∀ r ∈ b.restarts, ∃ n, PieceAt entries pieces r n
  single : entries = [] → b.restarts = [0]

namespace BlockBuilder

variable {b : BlockBuilder} {entries : List (Slice × Slice)} {pieces : List Slice}

theorem new_stores : new.Stores [] [] where
  all := .nil []
  buffer := rfl
  lastKey := rfl
  first := ⟨[], rfl⟩
  points := by
    intro r hr
    obtain rfl : r = 0 := by simpa [new] using hr
    exact ⟨0, .inr ⟨rfl, rfl⟩, rfl, .nil []⟩
  single := fun _ => rfl

/-- What `Add` shares of the last key, if anything, is common to both keys. -/
theorem shared_spec (compress : Prop) [Decidable compress] (lastKey key : Slice) :
    (if compress then sharedLength lastKey key else 0) ≤ lastKey.length ∧
      lastKey.take (if compress then sharedLength lastKey key else 0) =
        key.take (if compress then sharedLength lastKey key else 0) := by
  split_ifs
  · exact ⟨sharedLength_le _ _, take_sharedLength _ _⟩
  · exact ⟨Nat.zero_le _, rfl⟩

/-- **`Add`** keeps the restart points, whether the entry is a new one or not. -/
theorem Stores.add (h : b.Stores entries pieces) (interval : ℕ) (key value : Slice) :
    ∃ piece, (b.add interval key value).Stores (entries ++ [(key, value)]) (pieces ++ [piece]) := by
  set shared := if b.counter < interval then sharedLength b.lastKey key else 0 with hdef
  obtain ⟨hshared, htake⟩ := shared_spec (b.counter < interval) b.lastKey key
  rw [← hdef] at hshared htake
  set piece := entryHeader shared (key.drop shared).length value.length ++
    (key.drop shared ++ value) with hpiece
  have hpoints : (b.add interval key value).restarts =
      if b.counter < interval then b.restarts else b.restarts ++ [b.buffer.length % 2 ^ 32] := rfl
  have hlength := h.all.length_eq
  have hold : ∀ r n, PieceAt entries pieces r n →
      PieceAt (entries ++ [(key, value)]) (pieces ++ [piece]) r n :=
    fun r n hn => hn.append hlength shared (h.lastKey ▸ hshared) (h.lastKey ▸ htake)
  refine ⟨piece, h.all.append shared (h.lastKey ▸ hshared) (h.lastKey ▸ htake), ?_, ?_, ?_, ?_,
    by simp⟩
  · show b.buffer ++ piece = _
    rw [h.buffer, List.flatten_append, List.flatten_singleton]
  · show b.lastKey.take shared ++ key.drop shared = _
    rw [htake, List.take_append_drop]
    simp [lastKeyOf]
  · obtain ⟨restarts, hrestarts⟩ := h.first
    by_cases hcompress : b.counter < interval
    · exact ⟨restarts, by rw [hpoints]; simp [hcompress, hrestarts]⟩
    · exact ⟨restarts ++ [b.buffer.length % 2 ^ 32], by rw [hpoints]; simp [hcompress, hrestarts]⟩
  · intro r hr
    rw [hpoints] at hr
    by_cases hcompress : b.counter < interval
    · obtain ⟨n, hn⟩ := h.points r (by simpa [hcompress] using hr)
      exact ⟨n, hold r n hn⟩
    · -- the new restart point is in front of the new entry
      have hmem : r ∈ b.restarts ∨ r = b.buffer.length % 2 ^ 32 := by
        simpa [hcompress] using hr
      rcases hmem with hmem | rfl
      · obtain ⟨n, hn⟩ := h.points r hmem
        exact ⟨n, hold r n hn⟩
      · have hzero : shared = 0 := by rw [hdef, if_neg hcompress]
        refine ⟨entries.length, .inl (by simp), ?_, ?_⟩
        · rw [← hlength, List.take_left, h.buffer]
        · rw [List.drop_left, ← hlength, List.drop_left, hpiece, hzero]
          exact .cons 0 (Nat.zero_le _) rfl (.nil key)

/-- **The block of some entries.** -/
theorem addAll_stores (interval : ℕ) (entries : List (Slice × Slice)) :
    ∃ pieces, (new.addAll interval entries).Stores entries pieces := by
  have hall : ∀ (more : List (Slice × Slice)) {b : BlockBuilder} {entries : List (Slice × Slice)}
      {pieces : List Slice}, b.Stores entries pieces →
      ∃ pieces, (b.addAll interval more).Stores (entries ++ more) pieces := by
    intro more
    induction more with
    | nil => exact fun {b entries pieces} h => ⟨pieces, by simpa [addAll] using h⟩
    | cons e more ih =>
      intro b entries pieces h
      obtain ⟨piece, hadd⟩ := h.add interval e.1 e.2
      simpa [addAll] using ih hadd
  simpa using hall entries new_stores

end BlockBuilder

/-! ## Reading a finished block -/

/-- A finished block, below the limit of the format. -/
structure Finished (b : BlockBuilder) (entries : List (Slice × Slice)) (pieces : List Slice) :
    Prop extends b.Stores entries pieces where
  size : b.finish.length < 2 ^ 32

namespace Finished

variable {b : BlockBuilder} {entries : List (Slice × Slice)} {pieces : List Slice}

theorem length_finish (b : BlockBuilder) :
    b.finish.length = b.buffer.length + b.restarts.length * 4 + 4 := by
  simp only [BlockBuilder.finish, List.length_append, length_flatMap_encodeFixed32,
    length_encodeFixed32]
  omega

section

variable (h : Finished b entries pieces)

include h

theorem numRestarts_eq : Block.numRestarts b.finish = b.restarts.length := by
  have hlen := length_finish b
  have hsize := h.size
  unfold Block.numRestarts
  have hsplit : b.finish = (b.buffer ++ b.restarts.flatMap encodeFixed32) ++
      encodeFixed32 b.restarts.length := by simp [BlockBuilder.finish]
  have hdrop : b.finish.drop (b.finish.length - 4) = encodeFixed32 b.restarts.length := by
    rw [hsplit]
    refine List.drop_left' ?_
    rw [← hsplit, List.length_append, length_flatMap_encodeFixed32]
    omega
  have hcount := decodeFixed32_append b.restarts.length []
  rw [List.append_nil] at hcount
  rw [hdrop, hcount, Nat.mod_eq_of_lt (by omega)]

theorem new_eq : Block.new b.finish = ⟨b.finish, b.finish.length, b.buffer.length⟩ := by
  have hlen := length_finish b
  have hsize := h.size
  unfold Block.new
  rw [h.numRestarts_eq, if_neg (by omega), if_neg (by omega)]
  congr 1
  omega

theorem entriesFrom_eq {before rest : Slice} (hsplit : b.buffer = before ++ rest) :
    (Block.new b.finish).entriesFrom before.length = rest := by
  rw [h.new_eq]
  unfold Block.entriesFrom BlockBuilder.finish
  dsimp only
  rw [List.take_left, hsplit, List.drop_left]

theorem getRestartPoint_mem {i : ℕ} (hi : i < b.restarts.length) :
    ∃ r ∈ b.restarts, (Block.new b.finish).getRestartPoint i = r % 2 ^ 32 := by
  refine ⟨b.restarts[i], List.getElem_mem hi, ?_⟩
  obtain ⟨rest, hrest⟩ := drop_flatMap_encodeFixed32 hi (encodeFixed32 b.restarts.length)
  rw [h.new_eq]
  unfold Block.getRestartPoint BlockBuilder.finish
  dsimp only
  rw [← List.drop_drop, List.drop_left, hrest, decodeFixed32_append]

theorem getRestartPoint_zero : (Block.new b.finish).getRestartPoint 0 = 0 := by
  obtain ⟨restarts, hrestarts⟩ := h.first
  have hpos : 0 < b.restarts.length := by simp [hrestarts]
  obtain ⟨rest, hrest⟩ := drop_flatMap_encodeFixed32 hpos (encodeFixed32 b.restarts.length)
  rw [h.new_eq]
  unfold Block.getRestartPoint BlockBuilder.finish
  dsimp only
  rw [← List.drop_drop, List.drop_left, hrest, decodeFixed32_append]
  simp [hrestarts]

end

theorem value_of_split {before value rest : Slice} (hsplit : b.buffer = before ++ (value ++ rest)) :
    (b.finish.drop before.length).take value.length = value := by
  unfold BlockBuilder.finish
  rw [hsplit, List.append_assoc, List.drop_left, List.append_assoc, List.take_left]

end Finished

end McfKv
