import McfKv.Db.Separator
import McfKv.Table.BlockIterator

/-!
# Block iterators as cursors (`table/block_builder.cc`, `table/block.cc`)

On a finished block of fewer than `2^32` bytes an iterator is a cursor over the entries that were
added: `cursor_run`. For `Seek` alone less is needed of the comparator: `seek_finish` asks that the
entries less than the target come first.

An iterator is in front of an entry (`Front`), on an entry (`On`) or at the end (`Ended`).
`exists_stored` says how an entry lies in the block, and with it `ParseNextKey` goes from the front
of an entry to the entry. A restart point is in front of an entry (`RestartAt`). The loops go on with
`ParseNextKey` (`parseWhile_front`), and the binary search stops at a restart point behind which the
search goes on (`searchRestart_below`).
-/

namespace McfKv

open Coding Cursor

/-! ## Offsets of entries -/

variable {entries : List (Slice × Slice)} {pieces : List Slice} {k j : ℕ}

theorem offsetOf_lt (hne : ∀ piece ∈ pieces, piece ≠ []) (hjk : j < k) (hk : k ≤ pieces.length) :
    offsetOf pieces j < offsetOf pieces k := by
  induction k with
  | zero => omega
  | succ k ih =>
    have hget : pieces[k]? = some pieces[k] := List.getElem?_eq_getElem hk
    have hpos : 0 < (pieces[k]).length :=
      List.length_pos_of_ne_nil (hne _ (List.getElem_mem _))
    rw [offsetOf_succ hget]
    rcases Nat.lt_succ_iff_lt_or_eq.mp hjk with hlt | rfl
    · exact (ih hlt (by omega)).trans (by omega)
    · omega

theorem offsetOf_lt_iff (hne : ∀ piece ∈ pieces, piece ≠ []) (hj : j ≤ pieces.length)
    (hk : k ≤ pieces.length) : offsetOf pieces j < offsetOf pieces k ↔ j < k := by
  refine ⟨fun hlt => ?_, fun hlt => offsetOf_lt hne hlt hk⟩
  by_contra hge
  rcases (not_lt.mp hge).lt_or_eq with hgt | rfl
  · exact absurd (offsetOf_lt hne hgt hj) (by omega)
  · omega

/-! ## Positions of an iterator -/

/-- The iterator is in front of entry `k`. -/
structure Front (b : BlockBuilder) (entries : List (Slice × Slice)) (pieces : List Slice)
    (it : Block.Iter) (k : ℕ) : Prop where
  le : k ≤ entries.length
  offset : it.valueOffset + it.valueSize = offsetOf pieces k
  rest : Pieces it.key (entries.drop k) (pieces.drop k)
  key_le : it.key.length ≤ offsetOf pieces k
  index : it.restartIndex < b.restarts.length
  status : it.status = .ok

/-- The iterator is on entry `k`. -/
structure On (b : BlockBuilder) (entries : List (Slice × Slice)) (pieces : List Slice)
    (it : Block.Iter) (k : ℕ) : Prop where
  entry : entries[k]? = some (it.key, (Block.new b.finish).value it)
  current : it.current = offsetOf pieces k
  front : Front b entries pieces it (k + 1)

/-- The iterator has come to an end. -/
def Ended (b : BlockBuilder) (it : Block.Iter) : Prop :=
  it.current = b.buffer.length ∧ it.status = .ok

/-- The iterator is where the cursor is. -/
def Tracks (b : BlockBuilder) (entries : List (Slice × Slice)) (pieces : List Slice)
    (s : Block.Traced) (c : Option (Slice × Slice)) : Prop :=
  (c = none ∧ Ended b s.it) ∨ ∃ k, On b entries pieces s.it k ∧ c = entries[k]?

theorem Tracks.status {b : BlockBuilder} {s : Block.Traced} {c : Option (Slice × Slice)}
    (h : Tracks b entries pieces s c) : s.it.status = .ok := by
  rcases h with ⟨-, -, hstatus⟩ | ⟨k, hon, -⟩
  · exact hstatus
  · exact hon.front.status

/-- Restart point `i` is in front of entry `n`. -/
structure RestartAt (b : BlockBuilder) (entries : List (Slice × Slice)) (pieces : List Slice)
    (i n : ℕ) : Prop where
  index : i < b.restarts.length
  lt : n < entries.length ∨ entries = [] ∧ n = 0
  point : (Block.new b.finish).getRestartPoint i = offsetOf pieces n
  rest : Pieces [] (entries.drop n) (pieces.drop n)

theorem RestartAt.le {b : BlockBuilder} {i n : ℕ} (h : RestartAt b entries pieces i n) :
    n ≤ entries.length := by
  rcases h.lt with hn | ⟨-, rfl⟩
  · exact hn.le
  · exact Nat.zero_le _

/-- `SeekToRestartPoint` goes in front of the entry. -/
theorem RestartAt.front {b : BlockBuilder} {i n : ℕ} (h : RestartAt b entries pieces i n)
    {it : Block.Iter} (hstatus : it.status = .ok) :
    Front b entries pieces ((Block.new b.finish).seekToRestartPoint it i) n where
  le := h.le
  offset := h.point
  rest := h.rest
  key_le := Nat.zero_le _
  index := h.index
  status := hstatus

/-- Entry `k` as it lies in the block, behind an entry with the key `prev`. -/
structure Stored (b : BlockBuilder) (entries : List (Slice × Slice)) (pieces : List Slice)
    (prev : Slice) (k : ℕ) (key value before rest : Slice) (shared : ℕ) : Prop where
  entry : entries[k]? = some (key, value)
  shared_le : shared ≤ prev.length
  take_eq : prev.take shared = key.take shared
  next : Pieces key (entries.drop (k + 1)) (pieces.drop (k + 1))
  buffer : b.buffer = before ++ (value ++ rest)
  lt : offsetOf pieces k + (key.drop shared).length < before.length
  offset : before.length + value.length = offsetOf pieces (k + 1)
  decode : decodeEntry ((Block.new b.finish).entriesFrom (offsetOf pieces k)) =
    some ((shared, (key.drop shared).length, value.length), key.drop shared ++ (value ++ rest))

namespace Finished

variable {b : BlockBuilder} {n fuel : ℕ} {it : Block.Iter} {s : Block.Traced}

section

variable (h : Finished b entries pieces)

include h

theorem restarts_pos : 0 < b.restarts.length := by
  obtain ⟨restarts, hrestarts⟩ := h.first
  simp [hrestarts]

theorem restartOffset_eq : (Block.new b.finish).restartOffset = b.buffer.length := by
  rw [h.new_eq]

theorem length_eq_offsetOf : b.buffer.length = offsetOf pieces entries.length := by
  rw [h.buffer, offsetOf_of_length_le h.all.length_eq.le]

theorem offsetOf_lt_iff {j : ℕ} (hj : j ≤ entries.length) (hk : k ≤ entries.length) :
    offsetOf pieces j < offsetOf pieces k ↔ j < k :=
  McfKv.offsetOf_lt_iff h.all.ne_nil (h.all.length_eq ▸ hj) (h.all.length_eq ▸ hk)

theorem offsetOf_le (hk : k ≤ entries.length) : offsetOf pieces k ≤ b.buffer.length := by
  rw [h.length_eq_offsetOf]
  exact not_lt.mp fun hlt => absurd ((h.offsetOf_lt_iff le_rfl hk).mp hlt) (by omega)

theorem offsetOf_lt_size (hk : k ≤ entries.length) : offsetOf pieces k < 2 ^ 32 := by
  have hle := h.offsetOf_le hk
  have hlen := length_finish b
  have hsize := h.size
  omega

theorem length_le : entries.length ≤ b.buffer.length := by
  have hk : ∀ k ≤ entries.length, k ≤ offsetOf pieces k := by
    intro k
    induction k with
    | zero => exact fun _ => Nat.zero_le _
    | succ k ih =>
      intro hle
      have hlt := (h.offsetOf_lt_iff (by omega) hle).mpr (Nat.lt_succ_self k)
      have := ih (by omega)
      omega
  rw [h.length_eq_offsetOf]
  exact hk _ le_rfl

/-- **How an entry lies in the block.** -/
theorem exists_stored {prev : Slice} (hk : k < entries.length)
    (hrest : Pieces prev (entries.drop k) (pieces.drop k))
    (hprev : prev.length ≤ offsetOf pieces k) :
    ∃ key value before rest shared, Stored b entries pieces prev k key value before rest shared := by
  have hlen := length_finish b
  have hsize := h.size
  rw [List.drop_eq_getElem_cons hk] at hrest
  obtain ⟨⟨key, value⟩, hentry⟩ : ∃ e, entries[k] = e := ⟨_, rfl⟩
  rw [hentry] at hrest
  obtain ⟨rest, hdrop⟩ : ∃ rest, rest = pieces.drop k := ⟨_, rfl⟩
  rw [← hdrop] at hrest
  cases hrest with
  | @cons _ _ _ _ rest shared hshared htake hrest =>
    obtain ⟨header, hheader⟩ : ∃ header, header =
      BlockBuilder.entryHeader shared (key.drop shared).length value.length := ⟨_, rfl⟩
    have hpos : 0 < header.length := by
      have := length_encodeVarint32_pos (shared % 2 ^ 32)
      simp only [hheader, BlockBuilder.entryHeader, List.length_append]
      omega
    rw [← hheader] at hdrop
    have hsplit : b.buffer = (pieces.take k).flatten ++
        (header ++ (key.drop shared ++ (value ++ rest.flatten))) := by
      calc b.buffer = (pieces.take k ++ pieces.drop k).flatten := by
            rw [List.take_append_drop, h.buffer]
        _ = _ := by
            rw [← hdrop, List.flatten_append]
            simp
    have hbuffer := congrArg List.length hsplit
    have hpiece : pieces[k]? = some (header ++ (key.drop shared ++ value)) := by
      rw [← List.head?_drop, ← hdrop, List.head?_cons]
    have hoffset := offsetOf_succ hpiece
    simp only [List.length_append] at hbuffer hoffset
    refine ⟨key, value, (pieces.take k).flatten ++ (header ++ key.drop shared), rest.flatten, shared,
      ?_, hshared, htake, ?_, ?_, ?_, ?_, ?_⟩
    · rw [List.getElem?_eq_getElem hk, hentry]
    · rwa [show pieces.drop (k + 1) = rest by rw [← List.tail_drop, ← hdrop, List.tail_cons]]
    · rw [hsplit]
      simp only [List.append_assoc]
    · simp only [List.length_append, offsetOf]
      omega
    · rw [hoffset]
      simp only [List.length_append, offsetOf]
      omega
    · rw [show offsetOf pieces k = (pieces.take k).flatten.length from rfl,
        h.entriesFrom_eq hsplit, hheader]
      unfold offsetOf at hprev
      apply decodeEntry_entryHeader
      · omega
      · simp only [List.length_append]
        omega
      · simp only [List.length_append]
        omega

/-- **`ParseNextKey` in front of an entry** reads it. -/
theorem parseNextKey_front (hfront : Front b entries pieces it k) (hk : k < entries.length) :
    ∃ it', (Block.new b.finish).parseNextKey b.restarts.length it = (true, it') ∧
      On b entries pieces it' k := by
  obtain ⟨key, value, before, rest, shared, hstored⟩ :=
    h.exists_stored hk hfront.rest hfront.key_le
  have hlt : offsetOf pieces k < b.buffer.length := by
    rw [h.length_eq_offsetOf]
    exact (h.offsetOf_lt_iff hk.le le_rfl).mpr hk
  have hbuffer := congrArg List.length hstored.buffer
  have hbefore := hstored.lt
  have hshared := hstored.shared_le
  have hkey : key.length ≤ shared + (key.drop shared).length := by
    rw [List.length_drop]
    omega
  simp only [List.length_append] at hbuffer
  have hvalue : b.buffer.length - (key.drop shared ++ (value ++ rest)).length +
      (key.drop shared).length = before.length := by
    simp only [List.length_append]
    omega
  refine ⟨⟨offsetOf pieces k, (Block.new b.finish).advanceRestart b.restarts.length
    (offsetOf pieces k) b.restarts.length it.restartIndex, key, before.length, value.length,
    it.status⟩, ?_, ?_, rfl, hk, hstored.offset, hstored.next, ?_,
    Block.advanceRestart_lt hfront.index, hfront.status⟩
  · unfold Block.parseNextKey
    rw [hfront.offset, Nat.mod_eq_of_lt (h.offsetOf_lt_size hk.le), h.restartOffset_eq]
    dsimp only
    rw [if_neg (not_le.mpr hlt), hstored.decode]
    dsimp only
    rw [if_neg (not_lt.mpr hshared), List.take_left, hstored.take_eq, List.take_append_drop, hvalue]
  · rw [hstored.entry, Block.value, h.new_eq]
    exact congrArg (fun v => some (key, v)) (value_of_split hstored.buffer).symm
  · have hprev := hfront.key_le
    have hoffset := hstored.offset
    show key.length ≤ _
    omega

/-- **`ParseNextKey` behind the entries** ends the iteration. -/
theorem parseNextKey_front_end (hfront : Front b entries pieces it entries.length) :
    ∃ it', (Block.new b.finish).parseNextKey b.restarts.length it = (false, it') ∧ Ended b it' := by
  refine ⟨{ it with current := b.buffer.length, restartIndex := b.restarts.length }, ?_, rfl,
    hfront.status⟩
  unfold Block.parseNextKey
  rw [hfront.offset, Nat.mod_eq_of_lt (h.offsetOf_lt_size le_rfl), h.restartOffset_eq,
    h.length_eq_offsetOf]
  exact if_pos le_rfl

/-- **A loop over `ParseNextKey`** stops at the first entry that it asks for, or at the end. -/
theorem parseWhile_front {again : Block.Iter → Bool} {P : ℕ → Prop}
    (hagain : ∀ it j, On b entries pieces it j → (again it = true ↔ P j))
    (hfuel : entries.length - n < fuel) (hfront : Front b entries pieces s.it n) :
    ∃ s', (Block.new b.finish).parseWhile b.restarts.length again fuel s = some s' ∧
      ((∃ m, n ≤ m ∧ ¬ P m ∧ (∀ j, n ≤ j → j < m → P j) ∧ On b entries pieces s'.it m) ∨
        ((∀ j, n ≤ j → j < entries.length → P j) ∧ Ended b s'.it)) := by
  induction fuel generalizing n s with
  | zero => omega
  | succ fuel ih =>
    unfold Block.parseWhile Block.parse
    dsimp only
    rcases hfront.le.lt_or_eq with hlt | rfl
    · obtain ⟨it', hparse, hon⟩ := h.parseNextKey_front hfront hlt
      rw [hparse]
      dsimp only
      rw [Bool.true_and]
      by_cases hP : P n
      · rw [if_pos ((hagain it' n hon).mpr hP)]
        obtain ⟨s', hloop, hresult⟩ := @ih (n + 1) ⟨it', s.trace ++ _⟩ (by omega) hon.front
        have hall : ∀ m, (∀ j, n + 1 ≤ j → j < m → P j) → ∀ j, n ≤ j → j < m → P j := by
          intro m hm j hnj hjm
          rcases hnj.lt_or_eq with hnj | rfl
          · exact hm j hnj hjm
          · exact hP
        refine ⟨s', hloop, ?_⟩
        rcases hresult with ⟨m, hnm, hm, hbefore, hon'⟩ | ⟨hbefore, hended⟩
        · exact .inl ⟨m, by omega, hm, hall m hbefore, hon'⟩
        · exact .inr ⟨hall _ hbefore, hended⟩
      · rw [if_neg (fun hyes => hP ((hagain it' n hon).mp hyes))]
        exact ⟨_, rfl, .inl ⟨n, le_rfl, hP, fun j hnj hjn => by omega, hon⟩⟩
    · obtain ⟨it', hparse, hended⟩ := h.parseNextKey_front_end hfront
      rw [hparse]
      exact ⟨_, rfl, .inr ⟨fun j hnj hj => by omega, hended⟩⟩

/-- **A restart point** is in front of an entry. -/
theorem exists_restartAt {i : ℕ} (hi : i < b.restarts.length) :
    ∃ n, RestartAt b entries pieces i n := by
  obtain ⟨r, hr, hpoint⟩ := h.getRestartPoint_mem hi
  obtain ⟨n, hn, hoffset, hpieces⟩ := h.points r hr
  have hle : n ≤ entries.length := by
    rcases hn with hn | ⟨-, rfl⟩
    · exact hn.le
    · exact Nat.zero_le _
  have hr : r = offsetOf pieces n := hoffset.trans (Nat.mod_eq_of_lt (h.offsetOf_lt_size hle))
  exact ⟨n, hi, hn, by rw [hpoint, hr, Nat.mod_eq_of_lt (h.offsetOf_lt_size hle)], hpieces⟩

/-- The first restart point is in front of the first entry. -/
theorem restartAt_zero : RestartAt b entries pieces 0 0 := by
  obtain ⟨n, hat⟩ := h.exists_restartAt h.restarts_pos
  rcases Nat.eq_zero_or_pos n with rfl | hpos
  · exact hat
  · have hlt := (h.offsetOf_lt_iff (Nat.zero_le _) hat.le).mpr hpos
    rw [← hat.point, h.getRestartPoint_zero] at hlt
    exact absurd hlt (Nat.not_lt_zero _)

/-! ## Calls -/

theorem parse_tracks (hfront : Front b entries pieces s.it k) :
    Tracks b entries pieces ((Block.new b.finish).parse b.restarts.length s).2 entries[k]? := by
  unfold Block.parse
  rcases hfront.le.lt_or_eq with hlt | rfl
  · obtain ⟨it', hparse, hon⟩ := h.parseNextKey_front hfront hlt
    rw [hparse]
    exact .inr ⟨k, hon, rfl⟩
  · obtain ⟨it', hparse, hended⟩ := h.parseNextKey_front_end hfront
    rw [hparse]
    exact .inl ⟨List.getElem?_eq_none le_rfl, hended⟩

/-- The loops of `SeekToLast` and `Prev`: up to the entry in front of entry `k`. -/
theorem parseWhile_before (hfront : Front b entries pieces s.it n) (hnk : n < k)
    (hk : k ≤ entries.length) : ∃ s', (Block.new b.finish).parseWhile b.restarts.length
        (fun it => Block.nextEntryOffset it < offsetOf pieces k)
        ((Block.new b.finish).restartOffset + 1) s = some s' ∧
      Tracks b entries pieces s' (entries.take k).getLast? := by
  have hoffset := h.restartOffset_eq
  have hlength := h.length_le
  have hagain : ∀ it j, On b entries pieces it j →
      (decide (Block.nextEntryOffset it < offsetOf pieces k) = true ↔ j + 1 < k) := by
    intro it j hon
    rw [decide_eq_true_iff, Block.nextEntryOffset, hon.front.offset,
      Nat.mod_eq_of_lt (h.offsetOf_lt_size hon.front.le), h.offsetOf_lt_iff hon.front.le hk]
  obtain ⟨s', hloop, hresult⟩ := h.parseWhile_front hagain
    (show entries.length - n < (Block.new b.finish).restartOffset + 1 by omega) hfront
  refine ⟨s', hloop, ?_⟩
  rcases hresult with ⟨m, hnm, hm, hbefore, hon⟩ | ⟨hbefore, -⟩
  · have hmk : m = k - 1 := by
      by_contra hne
      have := hbefore (k - 1) (by omega) (by omega)
      omega
    refine .inr ⟨m, hon, ?_⟩
    rw [List.getLast?_take, if_neg (by omega), hmk,
      List.getElem?_eq_getElem (show k - 1 < entries.length by omega), Option.some_or]
  · have := hbefore (k - 1) (by omega) (by omega)
    omega

theorem seekToLast_tracks (hstatus : s.it.status = .ok) :
    ∃ s', (Block.new b.finish).seekToLast b.restarts.length s = some s' ∧
      Tracks b entries pieces s' entries.getLast? := by
  obtain ⟨n, hat⟩ := h.exists_restartAt (Nat.sub_lt h.restarts_pos Nat.one_pos)
  have hfront : Front b entries pieces
      ((Block.new b.finish).seekToRestart s (b.restarts.length - 1)).it n := hat.front hstatus
  unfold Block.seekToLast
  rw [h.restartOffset_eq, h.length_eq_offsetOf]
  rcases hat.lt with hn | ⟨rfl, rfl⟩
  · obtain ⟨s', hloop, htracks⟩ := h.parseWhile_before hfront hn le_rfl
    rw [List.take_length] at htracks
    rw [h.restartOffset_eq, h.length_eq_offsetOf] at hloop
    exact ⟨s', hloop, htracks⟩
  · have hagain : ∀ it j, On b [] pieces it j →
        (decide (Block.nextEntryOffset it < offsetOf pieces ([] : List (Slice × Slice)).length) =
          true ↔ False) := fun it j hon => absurd hon.entry (by simp)
    obtain ⟨s', hloop, hresult⟩ := h.parseWhile_front hagain
      (show ([] : List (Slice × Slice)).length - 0 <
        offsetOf pieces ([] : List (Slice × Slice)).length + 1 by simp) hfront
    refine ⟨s', hloop, ?_⟩
    rcases hresult with ⟨m, -, -, -, hon⟩ | ⟨-, hended⟩
    · exact absurd hon.entry (by simp)
    · exact .inl ⟨rfl, hended⟩

end

theorem prevRestart_spec (original : ℕ) (B : Block) (index : ℕ) :
    (∀ i, (B.prevRestart original index).1 = some i → B.getRestartPoint i < original) ∧
      ((B.prevRestart original index).1 = none → original ≤ B.getRestartPoint 0) := by
  induction index with
  | zero =>
    unfold Block.prevRestart
    dsimp only
    split_ifs with hle
    · exact ⟨by simp, fun _ => hle⟩
    · exact ⟨fun i hi => by cases hi; omega, by simp⟩
  | succ index ih =>
    unfold Block.prevRestart
    split_ifs with hle
    · exact ih
    · exact ⟨fun i hi => by cases hi; omega, by simp⟩

theorem prev_tracks (h : Finished b entries pieces) (hon : On b entries pieces s.it k) :
    ∃ s', (Block.new b.finish).prev b.restarts.length s = some s' ∧
      Tracks b entries pieces s' (entries.take k).getLast? := by
  have hk : k < entries.length := hon.front.le
  obtain ⟨hfound, hnone⟩ := prevRestart_spec s.it.current (Block.new b.finish) s.it.restartIndex
  have hrange := (Block.prevRestart_lt (b := Block.new b.finish) s.it.current hon.front.index).2
  rw [hon.current] at hfound hnone hrange
  unfold Block.prev
  dsimp only
  rw [hon.current]
  cases hindex : ((Block.new b.finish).prevRestart (offsetOf pieces k) s.it.restartIndex).1 with
  | none =>
    -- the first restart point is at offset 0, so that this is the first entry
    have hzero := hnone hindex
    rw [h.getRestartPoint_zero] at hzero
    have hfirst : k = 0 := by
      by_contra hne
      have := (h.offsetOf_lt_iff (Nat.zero_le _) hk.le).mpr (Nat.pos_of_ne_zero hne)
      omega
    exact ⟨_, rfl, .inl ⟨by simp [hfirst], h.restartOffset_eq, hon.front.status⟩⟩
  | some i =>
    obtain ⟨n, hat⟩ := h.exists_restartAt (hrange i hindex)
    have hlt := hfound i hindex
    rw [hat.point, h.offsetOf_lt_iff hat.le hk.le] at hlt
    exact h.parseWhile_before (s := (Block.new b.finish).seekToRestart ⟨s.it, _⟩ i)
      (hat.front hon.front.status) hlt hk.le

/-! ## `Seek` -/

/-- A restart point behind entries that are all less than the target. -/
def Below (b : BlockBuilder) (entries : List (Slice × Slice)) (pieces : List Slice)
    (cmp : Slice → Slice → Ordering) (target : Slice) (i : ℕ) : Prop :=
  ∃ n, RestartAt b entries pieces i n ∧ ∀ e ∈ entries.take n, cmp e.1 target = .lt

theorem find?_eq_getElem? {cmp : Slice → Slice → Ordering} {target : Slice} {m : ℕ}
    (hbefore : ∀ j e, j < m → entries[j]? = some e → cmp e.1 target = .lt)
    (hm : ∀ e, entries[m]? = some e → cmp e.1 target ≠ .lt) :
    entries.find? (fun e => cmp e.1 target ≠ .lt) = entries[m]? := by
  rw [← List.take_append_drop m entries, List.find?_append,
    List.find?_eq_none.mpr (fun e he => ?_), Option.none_or, List.take_append_drop]
  · cases hget : entries[m]? with
    | none =>
      rw [List.drop_eq_nil_iff.mpr (List.getElem?_eq_none_iff.mp hget)]
      rfl
    | some e =>
      obtain ⟨hlt, rfl⟩ := List.getElem?_eq_some_iff.mp hget
      rw [List.drop_eq_getElem_cons hlt, List.find?_cons_of_pos (by simpa using hm _ hget)]
  · obtain ⟨j, hj, rfl⟩ := List.mem_take_iff_getElem.mp he
    have := hbefore j _ (by omega) (List.getElem?_eq_getElem (by omega))
    simpa using this

section

variable (h : Finished b entries pieces) (cmp : Slice → Slice → Ordering) (target : Slice)
  (hsorted : entries.Pairwise fun x y => cmp y.1 target = .lt → cmp x.1 target = .lt)

include h hsorted

/-- **The binary search** stops at a restart point behind entries that are less than the target. -/
theorem searchRestart_below {left right : ℕ} (hfuel : right - left < fuel)
    (hright : right < b.restarts.length) (hleft : Below b entries pieces cmp target left)
    (trace : List Block.Access) : ∃ i trace', (Block.new b.finish).searchRestart cmp target fuel left right trace =
      some (some i, trace') ∧ Below b entries pieces cmp target i := by
  have hlen := length_finish b
  have hsize := h.size
  induction fuel generalizing left right trace with
  | zero => omega
  | succ fuel ih =>
    unfold Block.searchRestart
    by_cases hlt : left < right
    · rw [if_pos hlt]
      dsimp only
      rw [Nat.mod_eq_of_lt (by omega)]
      have hmid : (left + right + 1) / 2 < b.restarts.length := by omega
      obtain ⟨n, hat⟩ := h.exists_restartAt hmid
      have hn : n < entries.length := by
        refine hat.lt.resolve_right fun hnil => ?_
        have := congrArg List.length (h.single hnil.1)
        simp at this
        omega
      obtain ⟨key, value, before, rest, shared, hstored⟩ :=
        h.exists_stored hn hat.rest (Nat.zero_le _)
      obtain rfl : shared = 0 := Nat.le_zero.mp hstored.shared_le
      rw [hat.point, hstored.decode]
      dsimp only
      rw [if_neg (by simp), List.take_left, List.drop_zero]
      by_cases hcmp : cmp key target = .lt
      · rw [if_pos hcmp]
        refine ih (by omega) hright ⟨n, hat, fun e he => ?_⟩ _
        rw [← List.take_append_drop n entries, List.pairwise_append] at hsorted
        refine hsorted.2.2 e he (key, value) (List.mem_iff_getElem?.mpr ⟨0, ?_⟩) hcmp
        rw [List.getElem?_drop, Nat.add_zero, hstored.entry]
      · rw [if_neg hcmp]
        exact ih (by omega) (by omega) hleft _
    · rw [if_neg hlt]
      exact ⟨left, trace, rfl, hleft⟩

theorem seekTarget_tracks (hstatus : s.it.status = .ok) :
    ∃ s', (Block.new b.finish).seekTarget cmp b.restarts.length target s = some s' ∧
      Tracks b entries pieces s' (entries.find? fun e => cmp e.1 target ≠ .lt) := by
  have hlength := h.length_le
  have hpos := h.restarts_pos
  obtain ⟨i, trace, hsearch, n, hat, hbelow⟩ := h.searchRestart_below cmp target hsorted
    (show b.restarts.length - 1 - 0 < b.restarts.length by omega) (by omega)
    ⟨0, h.restartAt_zero, by simp⟩ s.trace
  -- entries in front of the restart point are less than the target
  have hless : ∀ j e, j < n → entries[j]? = some e → cmp e.1 target = .lt := by
    intro j e hj he
    refine hbelow e (List.mem_iff_getElem?.mpr ⟨j, ?_⟩)
    rw [List.getElem?_take_of_lt hj, he]
  have hagain : ∀ it j, On b entries pieces it j → (decide (cmp it.key target = .lt) = true ↔
      ∀ e, entries[j]? = some e → cmp e.1 target = .lt) := by
    intro it j hon
    rw [decide_eq_true_iff, hon.entry]
    exact ⟨fun hlt e he => by cases he; exact hlt, fun hall => hall _ rfl⟩
  obtain ⟨s', hloop, hresult⟩ := h.parseWhile_front hagain
    (show entries.length - n < (Block.new b.finish).restartOffset + 1 by
      rw [h.restartOffset_eq]; omega)
    (s := (Block.new b.finish).seekToRestart ⟨s.it, trace⟩ i) (hat.front hstatus)
  refine ⟨s', ?_, ?_⟩
  · unfold Block.seekTarget
    rw [hsearch, Option.bind_some]
    exact hloop
  · have hbefore : ∀ m, (∀ j, n ≤ j → j < m → ∀ e, entries[j]? = some e → cmp e.1 target = .lt) →
        ∀ j e, j < m → entries[j]? = some e → cmp e.1 target = .lt := by
      intro m hm j e hj he
      by_cases hnj : n ≤ j
      · exact hm j hnj hj e he
      · exact hless j e (by omega) he
    rcases hresult with ⟨m, -, hm, hall, hon⟩ | ⟨hall, hended⟩
    · refine .inr ⟨m, hon, find?_eq_getElem? (hbefore m hall) fun e he hlt => hm fun e' he' => ?_⟩
      rw [he] at he'
      cases he'
      exact hlt
    · refine .inl ⟨?_, hended⟩
      rw [find?_eq_getElem? (hbefore _ hall) (by simp), List.getElem?_eq_none le_rfl]

end

end Finished

/-! ## Runs -/

namespace Block

variable {b : BlockBuilder} {s : Traced} {c : Option (Slice × Slice)}

section

variable (h : Finished b entries pieces)

include h

theorem shown_of_tracks (htracks : Tracks b entries pieces s c) :
    (Block.new b.finish).shown (.iter s) = c := by
  unfold shown valid
  dsimp only
  rw [h.restartOffset_eq]
  rcases htracks with ⟨rfl, hended, -⟩ | ⟨k, hon, rfl⟩
  · simp [hended]
  · have hk : k < entries.length := hon.front.le
    have hlt := (h.offsetOf_lt_iff hk.le le_rfl).mpr hk
    rw [hon.current, h.length_eq_offsetOf, if_pos (by simpa using hlt), hon.entry]

theorem valid_iff_of_tracks (htracks : Tracks b entries pieces s c) :
    (Block.new b.finish).valid s.it = c.isSome := by
  rw [← shown_of_tracks h htracks]
  cases hvalid : (Block.new b.finish).valid s.it <;> simp [shown, hvalid]

theorem numRestarts_new : numRestarts (Block.new b.finish).data = b.restarts.length := by
  rw [h.new_eq]
  exact h.numRestarts_eq

/-- `NewIterator` gives an iterator that is not valid. -/
theorem newIterator_finish : ∃ s, (Block.new b.finish).newIterator = .iter s ∧
    Tracks b entries pieces s none := by
  have hlen := Finished.length_finish b
  have hpos := h.restarts_pos
  have hblock : (Block.new b.finish).size = b.finish.length := congrArg Block.size h.new_eq
  refine ⟨⟨(Block.new b.finish).iter b.restarts.length, []⟩, ?_, .inl ⟨rfl, h.restartOffset_eq, rfl⟩⟩
  unfold newIterator
  rw [numRestarts_new h, if_neg (by omega), if_neg (by omega)]

theorem step_iter {cmp : Slice → Slice → Ordering} {op : Cursor.Op Slice}
    (hallowed : (Block.new b.finish).allowed (.iter s) op = true) :
    (Block.new b.finish).step cmp (.iter s) op =
      ((Block.new b.finish).call cmp b.restarts.length s op).map .iter := by
  unfold step
  rw [if_pos hallowed, numRestarts_new h]

/-- **`Seek` on a finished block** stops at the first entry that is not less than the target. -/
theorem seek_finish (cmp : Slice → Slice → Ordering) (target : Slice)
    (hsorted : entries.Pairwise fun x y => cmp y.1 target = .lt → cmp x.1 target = .lt) :
    (Block.new b.finish).seek cmp target = (entries.find? fun e => cmp e.1 target ≠ .lt, .ok) := by
  obtain ⟨s, hiter, htracks⟩ := newIterator_finish h
  obtain ⟨s', hcall, htracks'⟩ := h.seekTarget_tracks cmp target hsorted htracks.status
  have hstep : (Block.new b.finish).step cmp (.iter s) (.seek target) = some (.iter s') := by
    rw [step_iter h rfl]
    exact congrArg (Option.map AnyIterator.iter) hcall
  unfold seek
  rw [hiter, hstep, Option.elim_some, shown_of_tracks h htracks']
  exact congrArg (Prod.mk _) htracks'.status

end

variable {cmp : Slice → Slice → Ordering} [Std.TransCmp cmp]

/-- **Each call does what it does on a cursor over the entries.** -/
theorem step_simulates (h : Finished b entries pieces) (hasc : Ascending cmp entries)
    (a : AnyIterator) (c : Option (Slice × Slice)) (op : Cursor.Op Slice)
    (htracks : ∃ s, a = .iter s ∧ Tracks b entries pieces s c) :
    Option.Rel (fun a c => ∃ s, a = .iter s ∧ Tracks b entries pieces s c)
      ((Block.new b.finish).step cmp a op) (stepWith cmp entries c op) := by
  obtain ⟨s, rfl, htracks⟩ := htracks
  have hreturns : ∀ {op c'}, (Block.new b.finish).allowed (.iter s) op = true →
      (∃ s', (Block.new b.finish).call cmp b.restarts.length s op = some s' ∧
        Tracks b entries pieces s' c') →
      Option.Rel (fun a c => ∃ s, a = .iter s ∧ Tracks b entries pieces s c)
        ((Block.new b.finish).step cmp (.iter s) op) (some c') := by
    rintro op c' hallowed ⟨s', hcall, htracks'⟩
    rw [step_iter h hallowed, hcall]
    exact .some ⟨s', rfl, htracks'⟩
  have hrefused : ∀ {op}, (Block.new b.finish).allowed (.iter s) op = false →
      Option.Rel (fun a c => ∃ s, a = .iter s ∧ Tracks b entries pieces s c)
        ((Block.new b.finish).step cmp (.iter s) op) (none : Option (Option (Slice × Slice))) := by
    intro op hrefused
    unfold step
    rw [if_neg (by simp [hrefused])]
    exact .none
  have hvalid := valid_iff_of_tracks h htracks
  cases op with
  | seek target =>
    exact hreturns rfl (h.seekTarget_tracks cmp target
      (hasc.imp fun hxy hy => Std.TransCmp.lt_trans hxy hy) htracks.status)
  | seekToFirst =>
    refine hreturns rfl ⟨_, rfl, ?_⟩
    rw [List.head?_eq_getElem?]
    exact h.parse_tracks (s := (Block.new b.finish).seekToRestart s 0)
      (h.restartAt_zero.front htracks.status)
  | seekToLast => exact hreturns rfl (h.seekToLast_tracks htracks.status)
  | next =>
    rcases htracks with ⟨rfl, hended⟩ | ⟨k, hon, rfl⟩
    · exact hrefused hvalid
    · rw [hon.entry] at hvalid ⊢
      rw [stepWith, hasc.find?_next hon.entry]
      exact hreturns hvalid ⟨_, rfl, h.parse_tracks hon.front⟩
  | prev =>
    rcases htracks with ⟨rfl, hended⟩ | ⟨k, hon, rfl⟩
    · exact hrefused hvalid
    · rw [hon.entry] at hvalid ⊢
      rw [stepWith, hasc.find?_prev hon.entry]
      exact hreturns hvalid (h.prev_tracks hon)

/-- **The iterator over a block is a cursor over its entries.** The block has fewer than `2^32`
bytes. -/
theorem cursor_run {interval : ℕ} {entries : List (Slice × Slice)} (hasc : Ascending cmp entries)
    (hsize : (BlockBuilder.new.addAll interval entries).finish.length < 2 ^ 32)
    (ops : List (Cursor.Op Slice)) :
    let b := Block.new (BlockBuilder.new.addAll interval entries).finish
    Option.Rel (fun a c => b.shown a = c ∧ statusOf a = .ok)
      (Run.runFrom (b.step cmp) b.newIterator ops) (Run.runFrom (stepWith cmp entries) none ops) := by
  intro b
  obtain ⟨pieces, hstores⟩ := BlockBuilder.addAll_stores interval entries
  have h : Finished (BlockBuilder.new.addAll interval entries) entries pieces := ⟨hstores, hsize⟩
  refine Run.rel_mono ?_ (Run.runFrom_rel (step_simulates h hasc) (newIterator_finish h) ops)
  rintro a c ⟨s, rfl, htracks⟩
  exact ⟨shown_of_tracks h htracks, htracks.status⟩

theorem cursor_run_threeEntries :
    let b := Block.new (BlockBuilder.new.addAll 2 threeEntries).finish
    Run.runFrom (stepWith compareSlices threeEntries) none [.seek [98], .prev] =
        some (some ([97, 98], [2])) ∧
      Option.Rel (fun a c => b.shown a = c ∧ statusOf a = .ok)
        (Run.runFrom (b.step compareSlices) b.newIterator [.seek [98], .prev])
        (Run.runFrom (stepWith compareSlices threeEntries) none [.seek [98], .prev]) :=
  ⟨by decide, cursor_run (by decide) (by decide +kernel) _⟩

end Block

/-! ## A value of `2^32` bytes -/

namespace Table

variable {value rest : Slice}

/-- An internal key of the user key `a`. -/
def keyA : Slice := [97, 1, 1, 0, 0, 0, 0, 0, 0]

/-- The block of one entry with a value of `2^32` bytes: its length is written as 0. -/
theorem finish_huge (hv : value.length = 2 ^ 32) :
    (BlockBuilder.new.addAll 16 [(keyA, value)]).finish =
      ([0, 9, 0] ++ keyA) ++ (value ++ [0, 0, 0, 0, 1, 0, 0, 0]) := by
  have hheader : BlockBuilder.entryHeader 0 9 value.length = [0, 9, 0] := by
    rw [hv]
    decide
  show (([] : Slice) ++ (BlockBuilder.entryHeader 0 9 value.length ++ (keyA ++ value))) ++
    ([0].flatMap encodeFixed32 ++ encodeFixed32 1) = _
  rw [hheader, show [0].flatMap encodeFixed32 ++ encodeFixed32 1 = [0, 0, 0, 0, 1, 0, 0, 0] by decide]
  simp only [List.nil_append, List.append_assoc]

/-- `restart_offset_` is truncated to the end of the key, so that the entry has no value. -/
theorem parseNextKey_huge (hv : rest.length = 2 ^ 32 - 4) :
    ∃ b : Block, Block.new (BlockBuilder.new.addAll 16 [(keyA, [0, 0, 0, 0] ++ rest)]).finish = b ∧
      b.size = 2 ^ 32 + 20 ∧ b.restartOffset = 12 ∧ Block.numRestarts b.data = 1 ∧
      b.parseNextKey 1 (b.seekToRestartPoint (b.iter 1) 0) = (true, ⟨0, 0, keyA, 12, 0, .ok⟩) := by
  obtain ⟨contents, hcontents⟩ : ∃ contents : Slice, contents =
    ([0, 9, 0] ++ keyA) ++ (([0, 0, 0, 0] ++ rest) ++ [0, 0, 0, 0, 1, 0, 0, 0]) := ⟨_, rfl⟩
  have hlen : contents.length = 2 ^ 32 + 20 := by
    rw [hcontents]
    simp [keyA, hv]
  have hnum : Block.numRestarts contents = 1 := by
    have hsplit : contents =
        (([0, 9, 0] ++ keyA) ++ (([0, 0, 0, 0] ++ rest) ++ [0, 0, 0, 0])) ++ [1, 0, 0, 0] := by
      rw [hcontents]
      simp
    have hdrop : contents.drop (2 ^ 32 + 20 - 4) = [1, 0, 0, 0] := by
      rw [hsplit]
      exact List.drop_left' (by simp [keyA, hv])
    unfold Block.numRestarts
    rw [hlen, hdrop]
    decide
  obtain ⟨b, hb⟩ : ∃ b : Block, b = ⟨contents, 2 ^ 32 + 20, 12⟩ := ⟨_, rfl⟩
  have hnew : Block.new contents = b := by
    unfold Block.new
    rw [hnum, hlen, hb]
    rfl
  have hpoint : b.getRestartPoint 0 = 0 := by
    rw [hb, hcontents]
    rfl
  have hentries : b.entriesFrom 0 = [0, 9, 0] ++ keyA := by
    rw [hb, hcontents]
    rfl
  have hdecode : decodeEntry ([0, 9, 0] ++ keyA) = some ((0, 9, 0), keyA) := by decide
  refine ⟨b, ?_, by rw [hb], by rw [hb], by rw [hb]; exact hnum, ?_⟩
  · rw [finish_huge (by simp [hv]), ← hcontents, hnew]
  · unfold Block.parseNextKey Block.seekToRestartPoint
    dsimp only
    rw [hpoint, show (0 + 0) % 2 ^ 32 = 0 from rfl, hentries, hdecode, hb]
    rfl

theorem replicate_huge :
    (List.replicate (2 ^ 32) 0 : Slice) = [0, 0, 0, 0] ++ List.replicate (2 ^ 32 - 4) 0 := by
  have hlen : 4 + (2 ^ 32 - 4) = 2 ^ 32 := by norm_num
  rw [show ([0, 0, 0, 0] : Slice) = List.replicate 4 0 from rfl, List.replicate_append_replicate,
    hlen]

end Table

namespace Block

theorem newIterator_huge {b : Block} (hsize : b.size = 2 ^ 32 + 20) (hnum : numRestarts b.data = 1) :
    b.newIterator = .iter ⟨b.iter 1, []⟩ := by
  unfold newIterator
  rw [hnum, hsize, if_neg (by norm_num), if_neg (by norm_num)]

/-- `SeekToFirst` on a block with a value of `2^32` bytes shows the key without a value. -/
theorem seekToFirst_huge {rest : Slice} (hv : rest.length = 2 ^ 32 - 4) :
    let b := Block.new (BlockBuilder.new.addAll 16 [(Table.keyA, [0, 0, 0, 0] ++ rest)]).finish
    ∃ a, Run.runFrom (b.step internalKeyCompare) b.newIterator [.seekToFirst] = some a ∧
      b.shown a = some (Table.keyA, []) := by
  obtain ⟨b, hnew, hsize, hoffset, hnum, hparse⟩ := Table.parseNextKey_huge hv
  rw [hnew]
  have hiter := newIterator_huge hsize hnum
  obtain ⟨trace, hcall⟩ : ∃ trace, b.call internalKeyCompare 1 ⟨b.iter 1, []⟩ .seekToFirst =
      some ⟨⟨0, 0, Table.keyA, 12, 0, .ok⟩, trace⟩ := by
    refine ⟨[.restart 0] ++ b.parseTrace 1 (b.seekToRestartPoint (b.iter 1) 0), ?_⟩
    show some (b.parse 1 (b.seekToRestart ⟨b.iter 1, []⟩ 0)).2 = _
    unfold parse seekToRestart
    dsimp only
    rw [hparse]
    rfl
  have hstep : b.step internalKeyCompare b.newIterator .seekToFirst =
      some (.iter ⟨⟨0, 0, Table.keyA, 12, 0, .ok⟩, trace⟩) := by
    rw [hiter]
    show (b.call internalKeyCompare (numRestarts b.data) ⟨b.iter 1, []⟩ .seekToFirst).map
      AnyIterator.iter = _
    rw [hnum, hcall]
    rfl
  refine ⟨_, by rw [Run.runFrom_cons, hstep]; rfl, ?_⟩
  simp [shown, valid, value, hoffset]

/-- **A value of `2^32` bytes is lost**: the iterator shows its key with an empty value. -/
theorem seekToFirst_hugeValue :
    let entries := [(Table.keyA, (List.replicate (2 ^ 32) 0 : Slice))]
    let b := Block.new (BlockBuilder.new.addAll 16 entries).finish
    Ascending internalKeyCompare entries ∧
      ∃ a c, Run.runFrom (b.step internalKeyCompare) b.newIterator [.seekToFirst] = some a ∧
        Run.runFrom (stepWith internalKeyCompare entries) none [.seekToFirst] = some c ∧
        b.shown a ≠ c := by
  obtain ⟨a, hrun, hshown⟩ := seekToFirst_huge (List.length_replicate (n := 2 ^ 32 - 4) (a := 0))
  rw [Table.replicate_huge]
  refine ⟨List.pairwise_singleton _ _, a, _, hrun, rfl, ?_⟩
  rw [hshown]
  intro heq
  cases heq

end Block

end McfKv
