import McfKv.Lib.Cursor
import McfKv.Table.Block

/-!
# Iterators over blocks (`table/block.cc`)

The calls of `Block::Iter` on a block with arbitrary contents. An iterator carries the list of what
it has touched: the restart points it has read, the entries it has taken, and those that it has
rejected.

`DecodeEntry` compares the bytes that are left with the *32-bit sum* of the two lengths of an entry.
All accesses of an iterator lie where they should if no sum wraps around, and each entry with a sum
that does is one whose key or value lies outside of the data area: `iteration_safe_iff`. Every call
ends in any case, since a round of a loop moves on by the bytes of the three lengths at least.

What is read outside of the data area is not modelled; a key then ends at its limit. The comparator
is a function of two slices: it is assumed to read the bytes of its arguments only.
-/

namespace McfKv

open Coding Cursor

namespace Block

/-- What an iterator does with the contents of its block. -/
inductive Access where
  /-- `GetRestartPoint`. -/
  | restart (index : ℕ)
  /-- An entry that is taken: the offset of the key delta, the length of the delta and that of the
  value behind it. -/
  | entry (offset nonShared valueLength : ℕ)
  /-- An entry that is rejected. -/
  | rejected (offset : ℕ)
deriving DecidableEq, Repr

/-- An iterator with its accesses so far. -/
structure Traced where
  it : Iter
  trace : List Access
deriving DecidableEq, Repr

/-- `NextEntryOffset`. -/
def nextEntryOffset (it : Iter) : ℕ := (it.valueOffset + it.valueSize) % 2 ^ 32

/-- The restart points that the loop at the end of `ParseNextKey` reads. -/
def advanceTrace (b : Block) (num current : ℕ) : ℕ → ℕ → List Access
  | 0, _ => []
  | fuel + 1, index =>
    if index + 1 < num then
      .restart (index + 1) ::
        if b.getRestartPoint (index + 1) < current then b.advanceTrace num current fuel (index + 1)
        else []
    else []

/-- What `ParseNextKey` touches. -/
def parseTrace (b : Block) (num : ℕ) (it : Iter) : List Access :=
  let current := nextEntryOffset it
  if b.restartOffset ≤ current then []
  else
    match decodeEntry (b.entriesFrom current) with
    | none => [.rejected current]
    | some ((shared, nonShared, valueLength), rest) =>
      if it.key.length < shared then [.rejected current]
      else
        .entry (b.restartOffset - rest.length) nonShared valueLength ::
          b.advanceTrace num current num it.restartIndex

/-- `ParseNextKey`. -/
def parse (b : Block) (num : ℕ) (s : Traced) : Bool × Traced :=
  ((b.parseNextKey num s.it).1, ⟨(b.parseNextKey num s.it).2, s.trace ++ b.parseTrace num s.it⟩)

/-- The loops `while (ParseNextKey() && again)`. -/
def parseWhile (b : Block) (num : ℕ) (again : Iter → Bool) : ℕ → Traced → Option Traced
  | 0, _ => none
  | fuel + 1, s =>
    let r := b.parse num s
    if r.1 && again r.2.it then b.parseWhile num again fuel r.2 else some r.2

/-- `SeekToRestartPoint`. -/
def seekToRestart (b : Block) (s : Traced) (index : ℕ) : Traced :=
  ⟨b.seekToRestartPoint s.it index, s.trace ++ [.restart index]⟩

/-- `Iter::SeekToLast`. A round takes three bytes at least. -/
def seekToLast (b : Block) (num : ℕ) (s : Traced) : Option Traced :=
  b.parseWhile num (fun it => nextEntryOffset it < b.restartOffset) (b.restartOffset + 1)
    (b.seekToRestart s (num - 1))

/-- The loop of `Prev` that looks for a restart point before the entry, and the restart points that it
reads. -/
def prevRestart (b : Block) (original : ℕ) : ℕ → Option ℕ × List Access
  | 0 => (if original ≤ b.getRestartPoint 0 then none else some 0, [.restart 0])
  | index + 1 =>
    if original ≤ b.getRestartPoint (index + 1) then
      ((b.prevRestart original index).1, .restart (index + 1) :: (b.prevRestart original index).2)
    else (some (index + 1), [.restart (index + 1)])

/-- `Iter::Prev`. -/
def prev (b : Block) (num : ℕ) (s : Traced) : Option Traced :=
  let original := s.it.current
  let r := b.prevRestart original s.it.restartIndex
  match r.1 with
  | none =>
    some ⟨{ s.it with current := b.restartOffset, restartIndex := num }, s.trace ++ r.2⟩
  | some index =>
    b.parseWhile num (fun it => nextEntryOffset it < original) (b.restartOffset + 1)
      (b.seekToRestart ⟨s.it, s.trace ++ r.2⟩ index)

/-- The binary search of `Seek`; the restart point is missing if an entry is rejected. -/
def searchRestart (b : Block) (cmp : Slice → Slice → Ordering) (target : Slice) :
    ℕ → ℕ → ℕ → List Access → Option (Option ℕ × List Access)
  | 0, _, _, _ => none
  | fuel + 1, left, right, trace =>
    if left < right then
      let mid := (left + right + 1) % 2 ^ 32 / 2
      let offset := b.getRestartPoint mid
      match decodeEntry (b.entriesFrom offset) with
      | none => some (none, trace ++ [.restart mid, .rejected offset])
      | some ((shared, nonShared, valueLength), rest) =>
        if shared ≠ 0 then some (none, trace ++ [.restart mid, .rejected offset])
        else
          let trace := trace ++
            [.restart mid, .entry (b.restartOffset - rest.length) nonShared valueLength]
          if cmp (rest.take nonShared) target = .lt then
            b.searchRestart cmp target fuel mid right trace
          else b.searchRestart cmp target fuel left (mid - 1) trace
    else some (some left, trace)

/-- `Iter::Seek`. -/
def seekTarget (b : Block) (cmp : Slice → Slice → Ordering) (num : ℕ) (target : Slice) (s : Traced) :
    Option Traced :=
  (b.searchRestart cmp target num 0 (num - 1) s.trace).bind fun r =>
    match r.1 with
    | none => some ⟨b.corruptionError num, r.2⟩
    | some left =>
      b.parseWhile num (fun it => cmp it.key target = .lt) (b.restartOffset + 1)
        (b.seekToRestart ⟨s.it, r.2⟩ left)

/-- One call on `Block::Iter`. -/
def call (b : Block) (cmp : Slice → Slice → Ordering) (num : ℕ) (s : Traced) :
    Cursor.Op Slice → Option Traced
  | .seek target => b.seekTarget cmp num target s
  | .seekToFirst => some (b.parse num (b.seekToRestart s 0)).2
  | .seekToLast => b.seekToLast num s
  | .next => some (b.parse num s).2
  | .prev => b.prev num s

/-- The iterators that `NewIterator` returns: the empty one with a status, or `Block::Iter`. -/
inductive AnyIterator where
  | empty (status : Status)
  | iter (s : Traced)
deriving DecidableEq, Repr

/-- `Block::NewIterator`. -/
def newIterator (b : Block) : AnyIterator :=
  if b.size < 4 then .empty (.corruption "bad block contents" "")
  else if numRestarts b.data = 0 then .empty .ok
  else .iter ⟨b.iter (numRestarts b.data), []⟩

/-- The calls that the interface allows: `Next` and `Prev` ask for a valid iterator. -/
def allowed (b : Block) : AnyIterator → Cursor.Op Slice → Bool
  | .iter s, .next => b.valid s.it
  | .iter s, .prev => b.valid s.it
  | .empty _, .next => false
  | .empty _, .prev => false
  | _, _ => true

/-- One call on an iterator of a block, if it is allowed. -/
def step (b : Block) (cmp : Slice → Slice → Ordering) (a : AnyIterator) (op : Cursor.Op Slice) :
    Option AnyIterator :=
  if b.allowed a op then
    match a with
    | .empty status => some (.empty status)
    | .iter s => (b.call cmp (numRestarts b.data) s op).map .iter
  else none

/-- What an iterator shows, if it is valid. -/
def shown (b : Block) : AnyIterator → Option (Slice × Slice)
  | .empty _ => none
  | .iter s => if b.valid s.it then some (s.it.key, b.value s.it) else none

/-- `Iterator::status`. -/
def statusOf : AnyIterator → Status
  | .empty status => status
  | .iter s => s.it.status

/-- `NewIterator` and `Seek`: what the iterator shows, and its status. -/
def seek (b : Block) (cmp : Slice → Slice → Ordering) (target : Slice) :
    Option (Slice × Slice) × Status :=
  -- `Seek` is allowed on every iterator, and it ends
  (b.step cmp b.newIterator (.seek target)).elim (none, .ok) fun a => (b.shown a, statusOf a)

/-! ## Entries of arbitrary bytes -/

variable {p rest : Slice} {shared nonShared valueLength current fuel index : ℕ}
  {more trace : List Access} {a : AnyIterator}

theorem decodeLengths_length {lengths : ℕ × ℕ × ℕ} (h : decodeLengths p = some (lengths, rest)) :
    rest.length + 3 ≤ p.length := by
  have hlen : 3 ≤ p.length := by
    match p, h with
    | _ :: _ :: _ :: _, _ => simp
  rw [decodeLengths_eq hlen, decodeVarints] at h
  obtain ⟨⟨shared, p₁⟩, h₁, h⟩ := Option.bind_eq_some_iff.mp h
  obtain ⟨⟨nonShared, p₂⟩, h₂, h⟩ := Option.bind_eq_some_iff.mp h
  obtain ⟨⟨valueLength, p₃⟩, h₃, h⟩ := Option.map_eq_some_iff.mp h
  cases h
  have hlt₁ := getVarint32_length_lt h₁
  have hlt₂ := getVarint32_length_lt h₂
  have hlt₃ := getVarint32_length_lt h₃
  omega

/-- **What `DecodeEntry` checks**: the lengths are there, and their 32-bit sum is not greater than the
bytes that are left. -/
theorem decodeEntry_eq_some (h : decodeEntry p = some ((shared, nonShared, valueLength), rest)) :
    rest.length + 3 ≤ p.length ∧ (nonShared + valueLength) % 2 ^ 32 ≤ rest.length := by
  obtain ⟨⟨⟨shared', nonShared', valueLength'⟩, rest'⟩, hlengths, h⟩ := Option.bind_eq_some_iff.mp h
  dsimp only at h
  split_ifs at h with hsum
  cases h
  exact ⟨decodeLengths_length hlengths, (not_lt.mp hsum).trans (Nat.mod_le _ _)⟩

/-! ## Accesses -/

/-- A block that `NewIterator` makes an iterator for. -/
structure Opened (b : Block) (num : ℕ) : Prop where
  length_eq : b.data.length = b.restartOffset + num * 4 + 4
  length_lt : b.data.length < 2 ^ 32
  num_pos : 0 < num

/-- What holds for every access: restart points have an index in range, and the 32-bit sum of the
lengths of an entry does not lead out of the data area. -/
def Plausible (b : Block) (num : ℕ) : Access → Prop
  | .restart index => index < num
  | .entry offset nonShared valueLength =>
    offset + (nonShared + valueLength) % 2 ^ 32 ≤ b.restartOffset
  | .rejected _ => True

/-- `Status::Corruption("bad entry in block")`. -/
def badEntry : Status := .corruption "bad entry in block" ""

/-- Plausible accesses, and the status after an entry that was rejected. -/
structure Sound (b : Block) (num : ℕ) (s : Traced) : Prop where
  trace : ∀ a ∈ s.trace, b.Plausible num a
  status : ∀ offset, .rejected offset ∈ s.trace → s.it.status = badEntry

/-- The value of the iterator is that of an entry it has taken. -/
structure Holding (num : ℕ) (s : Traced) : Prop where
  index_lt : s.it.restartIndex < num
  value : ∃ offset, .entry offset (s.it.valueOffset - offset) s.it.valueSize ∈ s.trace ∧
    offset ≤ s.it.valueOffset

/-- **The invariant of an iterator.** -/
structure Inv (b : Block) (num : ℕ) (s : Traced) : Prop extends Sound b num s where
  holding : b.valid s.it → Holding num s

variable {b : Block} {num : ℕ} {s : Traced}

theorem advanceTrace_plausible {a : Access} (ha : a ∈ b.advanceTrace num current fuel index) :
    ∃ i, a = .restart i ∧ i < num := by
  induction fuel generalizing index with
  | zero => simp [advanceTrace] at ha
  | succ fuel ih =>
    unfold advanceTrace at ha
    split_ifs at ha with hnext hless
    · rcases List.mem_cons.mp ha with rfl | ha
      · exact ⟨_, rfl, hnext⟩
      · exact ih ha
    · obtain rfl := List.mem_singleton.mp ha
      exact ⟨_, rfl, hnext⟩
    · simp at ha

theorem advanceRestart_lt (h : index < num) : b.advanceRestart num current fuel index < num := by
  induction fuel generalizing index with
  | zero => exact h
  | succ fuel ih =>
    unfold advanceRestart
    split_ifs with hnext
    · exact ih hnext.1
    · exact h

theorem Sound.append (h : b.Sound num s) {it : Iter}
    (hmore : ∀ a ∈ more, b.Plausible num a ∧ ∀ offset, a ≠ .rejected offset)
    (hstatus : it.status = s.it.status) : b.Sound num ⟨it, s.trace ++ more⟩ where
  trace := by
    intro a ha
    rcases List.mem_append.mp ha with ha | ha
    · exact h.trace a ha
    · exact (hmore a ha).1
  status := by
    intro offset ha
    rcases List.mem_append.mp ha with ha | ha
    · rw [← h.status offset ha, ← hstatus]
    · exact absurd rfl ((hmore _ ha).2 offset)

theorem Sound.inv_of_end (h : b.Sound num s) (hend : s.it.current = b.restartOffset) :
    b.Inv num s where
  toSound := h
  holding := fun hvalid => by simp [valid, hend] at hvalid

theorem corruptionError_inv (htrace : ∀ a ∈ trace, b.Plausible num a) :
    b.Inv num ⟨b.corruptionError num, trace⟩ :=
  Sound.inv_of_end ⟨htrace, fun _ _ => rfl⟩ rfl

theorem Sound.ended (h : b.Sound num s)
    (hmore : ∀ a ∈ more, b.Plausible num a ∧ ∀ offset, a ≠ .rejected offset) :
    b.Inv num ⟨{ s.it with current := b.restartOffset, restartIndex := num }, s.trace ++ more⟩ := by
  refine Sound.inv_of_end (h.append hmore ?_) ?_ <;> rfl

theorem plausible_of_decodeEntry {offset : ℕ}
    (h : decodeEntry (b.entriesFrom offset) = some ((shared, nonShared, valueLength), rest)) :
    b.Plausible num (.entry (b.restartOffset - rest.length) nonShared valueLength) := by
  obtain ⟨hrest, hsum⟩ := decodeEntry_eq_some h
  have hentries : (b.entriesFrom offset).length ≤ b.restartOffset := by
    simp only [entriesFrom, List.length_drop, List.length_take]
    omega
  show b.restartOffset - rest.length + (nonShared + valueLength) % 2 ^ 32 ≤ b.restartOffset
  omega

/-- **One call of `ParseNextKey`** ends the iteration or moves on to an entry. -/
theorem parse_cases (hb : b.Opened num) (h : b.Sound num s) (hindex : s.it.restartIndex < num) :
    ((b.parse num s).1 = false ∧ b.Inv num (b.parse num s).2) ∨
      ((b.parse num s).1 = true ∧ b.Sound num (b.parse num s).2 ∧ Holding num (b.parse num s).2 ∧
        nextEntryOffset s.it < b.restartOffset ∧
        nextEntryOffset s.it < nextEntryOffset (b.parse num s).2.it) := by
  have hlength := hb.length_eq
  have hlt := hb.length_lt
  unfold parse parseNextKey parseTrace
  dsimp only
  rw [show (s.it.valueOffset + s.it.valueSize) % 2 ^ 32 = nextEntryOffset s.it from rfl]
  by_cases hend : b.restartOffset ≤ nextEntryOffset s.it
  · rw [if_pos hend, if_pos hend]
    exact .inl ⟨rfl, h.ended (by simp)⟩
  · rw [if_neg hend, if_neg hend]
    have hrejected : ∀ a ∈ s.trace ++ [.rejected (nextEntryOffset s.it)], b.Plausible num a := by
      intro a ha
      rcases List.mem_append.mp ha with ha | ha
      · exact h.trace a ha
      · rw [List.mem_singleton.mp ha]
        trivial
    cases hdecode : decodeEntry (b.entriesFrom (nextEntryOffset s.it)) with
    | none => exact .inl ⟨rfl, corruptionError_inv hrejected⟩
    | some r =>
      obtain ⟨⟨shared, nonShared, valueLength⟩, rest⟩ := r
      dsimp only
      split_ifs with hshared
      · exact .inl ⟨rfl, corruptionError_inv hrejected⟩
      · obtain ⟨hrest, hsum⟩ := decodeEntry_eq_some hdecode
        have hentries : (b.entriesFrom (nextEntryOffset s.it)).length =
            b.restartOffset - nextEntryOffset s.it := by
          simp only [entriesFrom, List.length_drop, List.length_take]
          omega
        rw [hentries] at hrest
        refine .inr ⟨rfl, h.append (fun a ha => ?_) rfl, ⟨advanceRestart_lt hindex,
          b.restartOffset - rest.length, ?_, Nat.le_add_right _ _⟩, by omega, ?_⟩
        · rcases List.mem_cons.mp ha with rfl | ha
          · exact ⟨plausible_of_decodeEntry hdecode, by simp⟩
          · obtain ⟨i, rfl, hi⟩ := advanceTrace_plausible ha
            exact ⟨hi, by simp⟩
        · simp
        · -- the wrapped sum leads to an offset behind the three lengths
          unfold nextEntryOffset at hend hrest ⊢
          dsimp only
          omega

/-- **A loop over `ParseNextKey` ends.** -/
theorem parseWhile_inv (hb : b.Opened num) (again : Iter → Bool) (h : b.Sound num s)
    (hindex : s.it.restartIndex < num) (hfuel : b.restartOffset - nextEntryOffset s.it < fuel) :
    ∃ s', b.parseWhile num again fuel s = some s' ∧ b.Inv num s' := by
  induction fuel generalizing s with
  | zero => omega
  | succ fuel ih =>
    unfold parseWhile
    dsimp only
    rcases parse_cases hb h hindex with ⟨hfalse, hinv⟩ | ⟨htrue, hsound, hholding, hlt, hnext⟩
    · rw [hfalse, Bool.false_and, if_neg (by simp)]
      exact ⟨_, rfl, hinv⟩
    · rw [htrue, Bool.true_and]
      split_ifs
      · exact ih hsound hholding.index_lt (by omega)
      · exact ⟨_, rfl, hsound, fun _ => hholding⟩

theorem Sound.seekToRestart (h : b.Sound num s) (hindex : index < num) :
    b.Sound num (b.seekToRestart s index) :=
  h.append (fun a ha => by
    obtain rfl := List.mem_singleton.mp ha
    exact ⟨hindex, by simp⟩) rfl

theorem parseWhile_restart_inv (hb : b.Opened num) (again : Iter → Bool) (h : b.Sound num s)
    (hindex : index < num) :
    ∃ s', b.parseWhile num again (b.restartOffset + 1) (b.seekToRestart s index) = some s' ∧
      b.Inv num s' :=
  parseWhile_inv hb again (h.seekToRestart hindex) hindex (by omega)

theorem prevRestart_lt (original : ℕ) (hindex : index < num) :
    (∀ a ∈ (b.prevRestart original index).2, ∃ i, a = .restart i ∧ i < num) ∧
      ∀ i, (b.prevRestart original index).1 = some i → i < num := by
  induction index with
  | zero =>
    unfold prevRestart
    refine ⟨fun a ha => ⟨0, List.mem_singleton.mp ha, hindex⟩, fun i hi => ?_⟩
    dsimp only at hi
    split_ifs at hi
    cases hi
    exact hindex
  | succ index ih =>
    obtain ⟨hreads, hfound⟩ := ih (by omega)
    unfold prevRestart
    split_ifs
    · refine ⟨fun a ha => ?_, hfound⟩
      rcases List.mem_cons.mp ha with rfl | ha
      · exact ⟨_, rfl, hindex⟩
      · exact hreads a ha
    · refine ⟨fun a ha => ⟨_, List.mem_singleton.mp ha, hindex⟩, fun i hi => ?_⟩
      cases hi
      exact hindex

theorem prev_inv (hb : b.Opened num) (h : b.Inv num s) (hvalid : b.valid s.it) :
    ∃ s', b.prev num s = some s' ∧ b.Inv num s' := by
  obtain ⟨hreads, hfound⟩ := prevRestart_lt (b := b) s.it.current (h.holding hvalid).index_lt
  have hmore : ∀ a ∈ (b.prevRestart s.it.current s.it.restartIndex).2,
      b.Plausible num a ∧ ∀ offset, a ≠ .rejected offset := fun a ha => by
    obtain ⟨i, rfl, hi⟩ := hreads a ha
    exact ⟨hi, by simp⟩
  unfold prev
  dsimp only
  cases hindex : (b.prevRestart s.it.current s.it.restartIndex).1 with
  | none => exact ⟨_, rfl, h.toSound.ended hmore⟩
  | some index =>
    exact parseWhile_restart_inv hb _ (h.toSound.append hmore rfl) (hfound index hindex)

theorem plausible_append {mid : ℕ} {entry : Access} (htrace : ∀ a ∈ trace, b.Plausible num a)
    (hmid : mid < num) (hentry : b.Plausible num entry) :
    ∀ a ∈ trace ++ [.restart mid, entry], b.Plausible num a := by
  simp only [List.mem_append, List.mem_cons, List.not_mem_nil, or_false]
  rintro a (ha | rfl | rfl)
  · exact htrace a ha
  · exact hmid
  · exact hentry

/-- **The binary search of `Seek` ends**, at a restart point in range if no entry is rejected. -/
theorem searchRestart_spec (hb : b.Opened num) (cmp : Slice → Slice → Ordering) (target : Slice)
    {left right : ℕ} (htrace : ∀ a ∈ trace, b.Plausible num a) (hfuel : right - left < fuel)
    (hle : left ≤ right) (hright : right < num) :
    ∃ found trace', b.searchRestart cmp target fuel left right trace = some (found, trace') ∧
      (∀ a ∈ trace', b.Plausible num a) ∧ ∀ i, found = some i →
        i < num ∧ ∀ offset, .rejected offset ∈ trace' → .rejected offset ∈ trace := by
  have hlength := hb.length_eq
  have hlt := hb.length_lt
  induction fuel generalizing left right trace with
  | zero => omega
  | succ fuel ih =>
    unfold searchRestart
    by_cases hmore : left < right
    · rw [if_pos hmore]
      dsimp only
      rw [Nat.mod_eq_of_lt (show left + right + 1 < 2 ^ 32 by omega)]
      obtain ⟨mid, hmid⟩ : ∃ mid, mid = (left + right + 1) / 2 := ⟨_, rfl⟩
      rw [← hmid]
      have hrange : mid < num := by omega
      have hrejected : ∀ a ∈ trace ++ [.restart mid, .rejected (b.getRestartPoint mid)],
          b.Plausible num a := plausible_append htrace hrange trivial
      cases hdecode : decodeEntry (b.entriesFrom (b.getRestartPoint mid)) with
      | none => exact ⟨none, _, rfl, hrejected, by simp⟩
      | some r =>
        obtain ⟨⟨shared, nonShared, valueLength⟩, rest⟩ := r
        dsimp only
        by_cases hshared : shared ≠ 0
        · rw [if_pos hshared]
          exact ⟨none, _, rfl, hrejected, by simp⟩
        · rw [if_neg hshared]
          obtain ⟨trace₁, htrace₁⟩ : ∃ trace₁, trace₁ = trace ++ [.restart mid,
              .entry (b.restartOffset - rest.length) nonShared valueLength] := ⟨_, rfl⟩
          rw [← htrace₁]
          have hplausible : ∀ a ∈ trace₁, b.Plausible num a := by
            rw [htrace₁]
            exact plausible_append htrace hrange (plausible_of_decodeEntry hdecode)
          have hsame : ∀ offset, .rejected offset ∈ trace₁ → .rejected offset ∈ trace := by
            simp [htrace₁]
          have hnext : ∀ {left right}, right - left < fuel → left ≤ right → right < num →
              ∃ found trace', b.searchRestart cmp target fuel left right trace₁ =
                  some (found, trace') ∧ (∀ a ∈ trace', b.Plausible num a) ∧
                ∀ i, found = some i → i < num ∧
                  ∀ offset, .rejected offset ∈ trace' → .rejected offset ∈ trace := by
            intro left right hfuel hle hright
            obtain ⟨found, trace', hsearch, htrace', hfound⟩ := ih hplausible hfuel hle hright
            exact ⟨found, trace', hsearch, htrace', fun i hi =>
              ⟨(hfound i hi).1, fun offset ho => hsame offset ((hfound i hi).2 offset ho)⟩⟩
          split_ifs
          · exact hnext (by omega) (by omega) hright
          · exact hnext (by omega) (by omega) (by omega)
    · rw [if_neg hmore]
      refine ⟨some left, trace, rfl, htrace, fun i hi => ?_⟩
      cases hi
      exact ⟨by omega, fun _ ho => ho⟩

theorem seekTarget_inv (hb : b.Opened num) (cmp : Slice → Slice → Ordering) (target : Slice)
    (h : b.Sound num s) : ∃ s', b.seekTarget cmp num target s = some s' ∧ b.Inv num s' := by
  have hpos := hb.num_pos
  obtain ⟨found, trace, hsearch, htrace, hfound⟩ := searchRestart_spec hb cmp target h.trace
    (show num - 1 - 0 < num by omega) (Nat.zero_le _) (by omega)
  unfold seekTarget
  rw [hsearch, Option.bind_some]
  cases found with
  | none => exact ⟨_, rfl, corruptionError_inv htrace⟩
  | some left =>
    obtain ⟨hleft, hsame⟩ := hfound left rfl
    have hsound : b.Sound num ⟨s.it, trace⟩ :=
      ⟨htrace, fun offset ho => h.status offset (hsame offset ho)⟩
    exact parseWhile_restart_inv hb _ hsound hleft

theorem parse_inv (hb : b.Opened num) (h : b.Sound num s) (hindex : s.it.restartIndex < num) :
    b.Inv num (b.parse num s).2 := by
  rcases parse_cases hb h hindex with ⟨-, hinv⟩ | ⟨-, hsound, hholding, -⟩
  · exact hinv
  · exact ⟨hsound, fun _ => hholding⟩

/-- **Every call that is allowed ends and keeps the invariant.** -/
theorem call_inv (hb : b.Opened num) (cmp : Slice → Slice → Ordering) (h : b.Inv num s)
    (op : Cursor.Op Slice) (hallowed : b.allowed (.iter s) op) :
    ∃ s', b.call cmp num s op = some s' ∧ b.Inv num s' := by
  have hpos := hb.num_pos
  cases op with
  | seek target => exact seekTarget_inv hb cmp target h.toSound
  | seekToFirst => exact ⟨_, rfl, parse_inv hb (h.toSound.seekToRestart hpos) hpos⟩
  | seekToLast =>
    unfold call seekToLast
    exact parseWhile_restart_inv hb _ h.toSound (by omega)
  | next => exact ⟨_, rfl, parse_inv hb h.toSound (h.holding hallowed).index_lt⟩
  | prev => exact prev_inv hb h hallowed

/-! ## Safety -/

/-- Where an access lies: a restart point in the block, an entry with its key and its value in the data
area. -/
def Inside (b : Block) : Access → Prop
  | .restart index => b.restartOffset + index * 4 + 4 ≤ b.size
  | .entry offset nonShared valueLength => offset + nonShared + valueLength ≤ b.restartOffset
  | .rejected _ => True

/-- **Safety of an iterator.** Its accesses lie where they should, the value that it shows lies in the
data area, and an entry that was rejected shows in its status. -/
def Safe (b : Block) : AnyIterator → Prop
  | .empty _ => True
  | .iter s => (∀ a ∈ s.trace, b.Inside a) ∧
      (b.valid s.it → s.it.valueOffset + s.it.valueSize ≤ b.restartOffset) ∧
      ∀ offset, .rejected offset ∈ s.trace → s.it.status = badEntry

/-- The lengths of an entry add up without overflow. -/
def Access.Fits : Access → Prop
  | .entry _ nonShared valueLength => nonShared + valueLength < 2 ^ 32
  | _ => True

instance : DecidablePred Access.Fits
  | .restart _ => inferInstanceAs (Decidable True)
  | .entry _ nonShared valueLength =>
    inferInstanceAs (Decidable (nonShared + valueLength < 2 ^ 32))
  | .rejected _ => inferInstanceAs (Decidable True)

/-- The lengths of the entries that were taken add up without overflow. -/
def NoWrap : AnyIterator → Prop
  | .empty _ => True
  | .iter s => ∀ a ∈ s.trace, a.Fits

instance : DecidablePred NoWrap
  | .empty _ => inferInstanceAs (Decidable True)
  | .iter s => inferInstanceAs (Decidable (∀ a ∈ s.trace, a.Fits))

/-- An iterator that `step` reaches. -/
def AnyInv (b : Block) : AnyIterator → Prop
  | .empty _ => True
  | .iter s => b.Opened (numRestarts b.data) ∧ b.size = b.data.length ∧
      b.Inv (numRestarts b.data) s

theorem step_inv (cmp : Slice → Slice → Ordering) (h : b.AnyInv a) {op : Cursor.Op Slice}
    (hallowed : b.allowed a op) : ∃ a', b.step cmp a op = some a' ∧ b.AnyInv a' := by
  unfold step
  rw [if_pos hallowed]
  cases a with
  | empty status => exact ⟨_, rfl, trivial⟩
  | iter s =>
    obtain ⟨hopened, hsize, hinv⟩ := h
    obtain ⟨s', hcall, hinv'⟩ := call_inv hopened cmp hinv op hallowed
    dsimp only
    rw [hcall]
    exact ⟨_, rfl, hopened, hsize, hinv'⟩

/-- **`NewIterator` on arbitrary contents.** -/
theorem newIterator_inv {contents : Slice} (hsize : contents.length < 2 ^ 32) :
    (Block.new contents).AnyInv (Block.new contents).newIterator := by
  unfold newIterator
  split_ifs with hsmall hzero
  · trivial
  · trivial
  · unfold Block.new at hsmall hzero ⊢
    by_cases hshort : contents.length < 4
    · simp [hshort] at hsmall
    · by_cases hmany : (contents.length - 4) / 4 < numRestarts contents
      · simp [hshort, hmany] at hsmall
      · rw [if_neg hshort, if_neg hmany] at hzero ⊢
        dsimp only at hzero ⊢
        have hoffset : (contents.length - (1 + numRestarts contents) * 4) % 2 ^ 32 =
            contents.length - (1 + numRestarts contents) * 4 := Nat.mod_eq_of_lt (by omega)
        refine ⟨⟨?_, hsize, Nat.pos_of_ne_zero hzero⟩, rfl, Sound.inv_of_end ⟨by simp, by simp⟩ rfl⟩
        dsimp only
        omega

/-- **An iterator is safe if and only if no lengths wrap around.** -/
theorem safe_iff_noWrap (h : b.AnyInv a) : b.Safe a ↔ NoWrap a := by
  cases a with
  | empty status => exact Iff.rfl
  | iter s =>
    obtain ⟨hopened, hsize, hinv⟩ := h
    have hlength := hopened.length_eq
    have hlt := hopened.length_lt
    constructor
    · rintro ⟨hinside, -, -⟩ a ha
      cases a with
      | restart index => trivial
      | entry offset nonShared valueLength =>
        have hentry : offset + nonShared + valueLength ≤ b.restartOffset := hinside _ ha
        show nonShared + valueLength < 2 ^ 32
        omega
      | rejected offset => trivial
    · intro hwrap
      have hentry : ∀ offset nonShared valueLength, .entry offset nonShared valueLength ∈ s.trace →
          offset + nonShared + valueLength ≤ b.restartOffset := by
        intro offset nonShared valueLength hmem
        have hplausible : offset + (nonShared + valueLength) % 2 ^ 32 ≤ b.restartOffset :=
          hinv.trace _ hmem
        have hfits : nonShared + valueLength < 2 ^ 32 := hwrap _ hmem
        rw [Nat.mod_eq_of_lt hfits] at hplausible
        omega
      refine ⟨fun a ha => ?_, fun hvalid => ?_, hinv.status⟩
      · cases a with
        | restart index =>
          have hindex : index < numRestarts b.data := hinv.trace _ ha
          show b.restartOffset + index * 4 + 4 ≤ b.size
          omega
        | entry offset nonShared valueLength => exact hentry _ _ _ ha
        | rejected offset => trivial
      · obtain ⟨offset, hmem, hle⟩ := (hinv.holding hvalid).value
        have hvalue := hentry _ _ _ hmem
        omega

/-- **Safety of iteration over arbitrary bytes.** Every call that is allowed ends, and the iterator is
safe throughout if and only if it takes no entry whose lengths add up to `2^32` or more. -/
theorem iteration_safe_iff {contents : Slice} (hsize : contents.length < 2 ^ 32)
    (cmp : Slice → Slice → Ordering) {ops : List (Cursor.Op Slice)}
    (hallowed : Run.Meets ((Block.new contents).step cmp)
      (fun a op => (Block.new contents).allowed a op) (Block.new contents).newIterator ops) :
    ((∃ a, Run.runFrom ((Block.new contents).step cmp) (Block.new contents).newIterator ops = some a) ∧
        Run.Always ((Block.new contents).step cmp) (Block.new contents).Safe
          (Block.new contents).newIterator ops) ↔
      Run.Always ((Block.new contents).step cmp) NoWrap (Block.new contents).newIterator ops := by
  have hstart := newIterator_inv hsize
  have hpreserved : ∀ a op a', (Block.new contents).AnyInv a →
      (Block.new contents).step cmp a op = some a' → (Block.new contents).AnyInv a' := by
    intro a op a' hinv hstep
    have hallow : (Block.new contents).allowed a op := by
      by_contra hnot
      unfold step at hstep
      rw [if_neg hnot] at hstep
      cases hstep
    obtain ⟨a'', hstep', hinv'⟩ := step_inv cmp hinv hallow
    rw [hstep] at hstep'
    cases hstep'
    exact hinv'
  obtain ⟨a, hrun, -⟩ := Run.runFrom_total (fun _ _ hinv hallow => step_inv cmp hinv hallow) hstart
    hallowed
  rw [Run.always_congr (fun _ hinv => safe_iff_noWrap hinv) hpreserved hstart]
  exact and_iff_right ⟨a, hrun⟩

/-- Three entries, of which two share a byte. -/
def threeEntries : List (Slice × Slice) := [([97], [1]), ([97, 98], [2]), ([99], [3])]

theorem iteration_safe_iff_threeEntries :
    let b := Block.new (BlockBuilder.new.addAll 2 threeEntries).finish
    (∃ a, Run.runFrom (b.step compareSlices) b.newIterator [.seek [98], .prev, .next, .next] =
        some a) ∧
      Run.Always (b.step compareSlices) b.Safe b.newIterator [.seek [98], .prev, .next, .next] :=
  (iteration_safe_iff (by decide +kernel) compareSlices (by decide +kernel)).mpr (by decide +kernel)

/-- An entry with a key of `2^32 - 1` bytes and a value of two, of which one byte is there. -/
def wrappedBlock : Slice := [0, 255, 255, 255, 255, 15, 2, 97, 0, 0, 0, 0, 1, 0, 0, 0]

/-- **`DecodeEntry` accepts lengths whose sum wraps around**: `SeekToFirst` appends a key of
`2^32 - 1` bytes from a block of 16. -/
theorem seekToFirst_wraps :
    let b := Block.new wrappedBlock
    wrappedBlock.length < 2 ^ 32 ∧
      Run.Meets (b.step compareSlices) (fun a op => b.allowed a op) b.newIterator [.seekToFirst] ∧
      ¬ Run.Always (b.step compareSlices) b.Safe b.newIterator [.seekToFirst] := by
  intro b
  refine ⟨by decide, by decide +kernel, fun halways => ?_⟩
  have hstep : b.step compareSlices b.newIterator .seekToFirst =
      some (.iter ⟨⟨0, 0, [97], 4294967302, 2, .ok⟩, [.restart 0, .entry 7 4294967295 2]⟩) := by
    decide +kernel
  have hinside : b.Inside (.entry 7 4294967295 2) := (halways.2 _ hstep).1 _ (by simp)
  have hend : 7 + 4294967295 + 2 ≤ 8 := hinside
  omega

end Block

end McfKv
