import McfKv.Db.Table
import McfKv.Lib.Cursor

/-!
# The iterator of a database (`db/db_iter.cc`)

`DBIter` runs over the versions of all user keys, in the order of `InternalKeyComparator`, and
shows each user key at most once: with its newest version that is not too new, if that is a
value. While it moves forward the internal iterator is at the entry that is shown. While it
moves backward the entry is saved, and the internal iterator is in front of all versions of its
user key that a reader can see.

The two loops have an invariant each, `Skips` and `Candidate`; `findNextLoop_lands` and
`findPrevLoop_lands` say that they end at the next shown entry in their direction.
-/

namespace McfKv

/-! ## The internal iterator -/

/-- The place of an iterator over a list of entries; the entries before it are in reverse. -/
inductive Position where
  | invalid
  | on (before : List Entry) (entry : Entry) (after : List Entry)

namespace Position

/-- `SeekToFirst` of the internal iterator. -/
def seekToFirst : List Entry → Position
  | [] => .invalid
  | e :: after => .on [] e after

/-- `SeekToLast` of the internal iterator. -/
def seekToLast (entries : List Entry) : Position :=
  match entries.reverse with
  | [] => .invalid
  | e :: before => .on before e []

/-- `Seek` of the internal iterator, behind the entries `before`. -/
def seek (target : Slice) : List Entry → List Entry → Position
  | _, [] => .invalid
  | before, e :: after =>
    if internalKeyCompare e.internalKey target = .lt then seek target (e :: before) after
    else .on before e after

/-- `Next` of the internal iterator. -/
def next : Position → Position
  | .on before e (e' :: after) => .on (e :: before) e' after
  | _ => .invalid

/-- The step of `DBIter::Next` from the place in front of a key into the entries of the key. -/
def enter (entries : List Entry) : Position → Position
  | .invalid => seekToFirst entries
  | .on before e after => (Position.on before e after).next

end Position

/-! ## `class DBIter` -/

/-- `enum Direction`. -/
inductive Direction where
  | forward
  | reverse
deriving DecidableEq, Repr

/-- `class DBIter`. The counter for `RandomPeriod` is left out: nothing reads it. -/
structure DBIter where
  iter : Position
  savedKey : Slice
  savedValue : Slice
  direction : Direction
  valid : Bool

namespace DBIter

/-- A new iterator. -/
def new : DBIter := ⟨.invalid, [], [], .forward, false⟩

/-- `DBIter::key`; `none` where the internal iterator is not valid. -/
def key (it : DBIter) : Option Slice :=
  match it.direction, it.iter with
  | .forward, .on _ e _ => some (extractUserKey e.internalKey)
  | .forward, .invalid => none
  | .reverse, _ => some it.savedKey

/-- `DBIter::value`. -/
def value (it : DBIter) : Option Slice :=
  match it.direction, it.iter with
  | .forward, .on _ e _ => some e.value
  | .forward, .invalid => none
  | .reverse, _ => some it.savedValue

/-- One round of `FindNextUserEntry`: `none` for an entry to yield, and otherwise the new
`skipping` and `skip`. -/
def nextRound (sequence : ℕ) (skipping : Bool) (skip : Slice) (e : Entry) :
    Option (Bool × Slice) :=
  match parseInternalKey e.internalKey with
  | none => some (skipping, skip)
  | some (userKey, seq, type) =>
    if seq ≤ sequence then
      match type with
      -- skip all upcoming entries for this key
      | .deletion => some (true, userKey)
      | .value =>
        if skipping ∧ compareSlices userKey skip ≠ .gt then some (skipping, skip) else none
    else some (skipping, skip)

/-- The loop of `FindNextUserEntry`: the place of the internal iterator, and `valid_`. -/
def findNextLoop (sequence : ℕ) (skipping : Bool) (skip : Slice) (before : List Entry) (e : Entry)
    (after : List Entry) : Position × Bool :=
  match nextRound sequence skipping skip e with
  | none => (.on before e after, true)
  | some (skipping, skip) =>
    match after with
    | [] => (.invalid, false)
    | e' :: after => findNextLoop sequence skipping skip (e :: before) e' after

/-- `FindNextUserEntry` at an entry. -/
def findNextUserEntry (sequence : ℕ) (it : DBIter) (skipping : Bool) (skip : Slice)
    (before : List Entry) (e : Entry) (after : List Entry) : DBIter :=
  let found := findNextLoop sequence skipping skip before e after
  { it with iter := found.1, savedKey := [], direction := .forward, valid := found.2 }

/-- One round of `FindPrevUserEntry`: `none` where it breaks out of the loop, and otherwise the
new `value_type`, `saved_key_` and `saved_value_`. -/
def prevRound (sequence : ℕ) (valueType : ValueType) (savedKey savedValue : Slice) (e : Entry) :
    Option (ValueType × Slice × Slice) :=
  match parseInternalKey e.internalKey with
  | none => some (valueType, savedKey, savedValue)
  | some (userKey, seq, type) =>
    if seq ≤ sequence then
      if valueType ≠ .deletion ∧ compareSlices userKey savedKey = .lt then none
      else
        match type with
        | .deletion => some (.deletion, [], [])
        | .value => some (.value, extractUserKey e.internalKey, e.value)
    else some (valueType, savedKey, savedValue)

/-- The loop of `FindPrevUserEntry`. -/
def findPrevLoop (sequence : ℕ) (valueType : ValueType) (savedKey savedValue : Slice)
    (before : List Entry) (e : Entry) (after : List Entry) :
    Position × ValueType × Slice × Slice :=
  match prevRound sequence valueType savedKey savedValue e with
  | none => (.on before e after, valueType, savedKey, savedValue)
  | some (valueType, savedKey, savedValue) =>
    match before with
    | [] => (.invalid, valueType, savedKey, savedValue)
    | e' :: before => findPrevLoop sequence valueType savedKey savedValue before e' (e :: after)

/-- `FindPrevUserEntry`. -/
def findPrevUserEntry (sequence : ℕ) (it : DBIter) : DBIter :=
  let found : Position × ValueType × Slice × Slice := match it.iter with
    | .invalid => (.invalid, .deletion, it.savedKey, it.savedValue)
    | .on before e after =>
      findPrevLoop sequence .deletion it.savedKey it.savedValue before e after
  match found with
  | (iter, .deletion, _, _) => ⟨iter, [], [], .forward, false⟩
  | (iter, .value, savedKey, savedValue) => ⟨iter, savedKey, savedValue, .reverse, true⟩

/-- The loop of `Prev` that scans backwards until the key changes. -/
def scanBack (savedKey : Slice) : List Entry → Entry → List Entry → Position
  | [], _, _ => .invalid
  | e' :: before, e, after =>
    if compareSlices (extractUserKey e'.internalKey) savedKey = .lt then
      .on before e' (e :: after)
    else scanBack savedKey before e' (e :: after)

/-- `DBIter::Next`; `none` where an assertion fails. -/
def next (entries : List Entry) (sequence : ℕ) (it : DBIter) : Option DBIter :=
  if it.valid then
    match it.direction, it.iter with
    | .forward, .invalid => none
    | .forward, .on before e after =>
      some (findNextUserEntry sequence it true (extractUserKey e.internalKey) before e after)
    | .reverse, iter =>
      match iter.enter entries with
      | .invalid =>
        some { it with iter := .invalid, savedKey := [], direction := .forward, valid := false }
      | .on before e after =>
        some (findNextUserEntry sequence it true it.savedKey before e after)
  else none

/-- `DBIter::Prev`; `none` where an assertion fails. -/
def prev (sequence : ℕ) (it : DBIter) : Option DBIter :=
  if it.valid then
    match it.direction, it.iter with
    | .forward, .invalid => none
    | .forward, .on before e after =>
      let savedKey := extractUserKey e.internalKey
      match scanBack savedKey before e after with
      | .invalid => some ⟨.invalid, [], [], .forward, false⟩
      | iter => some (findPrevUserEntry sequence
          { it with iter := iter, savedKey := savedKey, direction := .reverse })
    | .reverse, _ => some (findPrevUserEntry sequence it)
  else none

/-- `DBIter::Seek`. -/
def seek (entries : List Entry) (sequence : ℕ) (it : DBIter) (target : Slice) : DBIter :=
  match Position.seek (lookupKey target sequence) [] entries with
  | .invalid => ⟨.invalid, lookupKey target sequence, [], .forward, false⟩
  | .on before e after =>
    findNextUserEntry sequence { it with savedValue := [] } false (lookupKey target sequence)
      before e after

/-- `DBIter::SeekToFirst`. -/
def seekToFirst (entries : List Entry) (sequence : ℕ) (it : DBIter) : DBIter :=
  match Position.seekToFirst entries with
  | .invalid => ⟨.invalid, it.savedKey, [], .forward, false⟩
  | .on before e after =>
    findNextUserEntry sequence { it with savedValue := [] } false it.savedKey before e after

/-- `DBIter::SeekToLast`. -/
def seekToLast (entries : List Entry) (sequence : ℕ) (it : DBIter) : DBIter :=
  findPrevUserEntry sequence
    { it with iter := Position.seekToLast entries, savedValue := [], direction := .reverse }

/-- A call on the iterator. -/
def step (entries : List Entry) (sequence : ℕ) (it : DBIter) : Cursor.Op Slice → Option DBIter
  | .seek target => some (it.seek entries sequence target)
  | .seekToFirst => some (it.seekToFirst entries sequence)
  | .seekToLast => some (it.seekToLast entries sequence)
  | .next => it.next entries sequence
  | .prev => it.prev sequence

/-- The iterator shows what a cursor is at. -/
def Shows (it : DBIter) : Option (Slice × Slice) → Prop
  | none => it.valid = false
  | some c => it.valid = true ∧ it.key = some c.1 ∧ it.value = some c.2

/-! ## The shown entries -/

/-- `a` is before `b`: by its user key, or as a newer version of the same key. -/
def Before (a b : Entry) : Prop :=
  a.userKey < b.userKey ∨ (a.userKey = b.userKey ∧ b.sequence < a.sequence)

/-- The entries under an internal iterator. -/
structure Ordered (entries : List Entry) : Prop where
  before : entries.Pairwise Before
  range : ∀ e ∈ entries, e.sequence ≤ maxSequenceNumber

/-- A reader at `s` is shown the entry: it is a value, and the newest version of its user key that
is not too new. -/
def Shown (entries : List Entry) (s : ℕ) (e : Entry) : Prop :=
  e.sequence ≤ s ∧ e.type = .value ∧ ∀ e' ∈ entries, e'.userKey = e.userKey → e'.sequence ≤ s →
    e'.sequence ≤ e.sequence

instance (entries : List Entry) (s : ℕ) : DecidablePred (Shown entries s) := fun e =>
  inferInstanceAs (Decidable (e.sequence ≤ s ∧ e.type = .value ∧ ∀ e' ∈ entries,
    e'.userKey = e.userKey → e'.sequence ≤ s → e'.sequence ≤ e.sequence))

/-- The first shown entry of a part of the entries with a key that is asked for. -/
def firstShown (entries : List Entry) (s : ℕ) (P : Slice → Prop) [DecidablePred P]
    (part : List Entry) : Option Entry :=
  part.find? fun e => Shown entries s e ∧ P e.userKey

section Search

variable {entries : List Entry} {s : ℕ} {P Q : Slice → Prop} [DecidablePred P] [DecidablePred Q]
  {xs ys : List Entry} {e : Entry}

theorem firstShown_cons_of_not (h : ¬ (Shown entries s e ∧ P e.userKey)) :
    firstShown entries s P (e :: xs) = firstShown entries s P xs :=
  List.find?_cons_of_neg (by simpa using h)

theorem firstShown_cons (hshown : Shown entries s e) (hP : P e.userKey) :
    firstShown entries s P (e :: xs) = some e :=
  List.find?_cons_of_pos (by simp [hshown, hP])

theorem firstShown_append_of_not (h : ∀ e ∈ xs, Shown entries s e → ¬ P e.userKey) :
    firstShown entries s P (xs ++ ys) = firstShown entries s P ys := by
  induction xs with
  | nil => rfl
  | cons x xs ih =>
    rw [List.cons_append, firstShown_cons_of_not fun hx => h x List.mem_cons_self hx.1 hx.2]
    exact ih fun e he => h e (List.mem_cons_of_mem _ he)

theorem firstShown_of_split {part : List Entry} (hsplit : part = xs ++ ys)
    (h : ∀ e ∈ xs, Shown entries s e → ¬ P e.userKey) :
    firstShown entries s P part = firstShown entries s P ys := by
  rw [hsplit]
  exact firstShown_append_of_not h

theorem firstShown_eq_none (h : ∀ e ∈ xs, Shown entries s e → ¬ P e.userKey) :
    firstShown entries s P xs = none := by
  have happend : firstShown entries s P (xs ++ []) = none := firstShown_append_of_not h
  rwa [List.append_nil] at happend

theorem firstShown_congr (h : ∀ e ∈ xs, Shown entries s e → (P e.userKey ↔ Q e.userKey)) :
    firstShown entries s P xs = firstShown entries s Q xs := by
  induction xs with
  | nil => rfl
  | cons x xs ih =>
    have hx : decide (Shown entries s x ∧ P x.userKey) = decide (Shown entries s x ∧ Q x.userKey) :=
      decide_eq_decide.mpr (and_congr_right (h x List.mem_cons_self))
    unfold firstShown at ih ⊢
    rw [List.find?_cons, List.find?_cons, hx, ih fun e he => h e (List.mem_cons_of_mem _ he)]

end Search

/-! ## Moving forward -/

variable {entries : List Entry} {s : ℕ}

variable {e a b : Entry} {before after : List Entry}

theorem Ordered.parse (h : Ordered entries) (he : e ∈ entries) :
    parseInternalKey e.internalKey = some (e.userKey, e.sequence, e.type) :=
  parseInternalKey_append e.userKey (h.range e he) e.type

@[simp] theorem extractUserKey_internalKey (e : Entry) : extractUserKey e.internalKey = e.userKey :=
  extractUserKey_append e.userKey e.sequence e.type

theorem Before.key_le (h : Before a b) : a.userKey ≤ b.userKey := by
  rcases h with hlt | ⟨heq, -⟩
  · exact hlt.le
  · exact heq.le

theorem Ordered.around (h : Ordered entries) (hsplit : entries = before.reverse ++ e :: after) :
    (∀ x ∈ before, Before x e) ∧ ∀ x ∈ after, Before e x := by
  obtain ⟨-, hcons, hcross⟩ := List.pairwise_append.mp (hsplit ▸ h.before)
  exact ⟨fun x hx => hcross x (List.mem_reverse.mpr hx) e List.mem_cons_self,
    (List.pairwise_cons.mp hcons).1⟩

/-- A value that a reader can see is shown unless a version of its key in front of it can be
seen too. -/
theorem Ordered.shown (h : Ordered entries) (hsplit : entries = before.reverse ++ e :: after)
    (hseq : e.sequence ≤ s) (htype : e.type ≠ .deletion)
    (hfront : ∀ y ∈ before, y.sequence ≤ s → y.userKey ≠ e.userKey) : Shown entries s e := by
  have hvalue : e.type = .value := by
    cases htype' : e.type with
    | deletion => exact absurd htype' htype
    | value => rfl
  refine ⟨hseq, hvalue, fun y hy hkey hys => ?_⟩
  have hmem : y ∈ before.reverse ++ e :: after := hsplit ▸ hy
  rcases List.mem_append.mp hmem with hy | hy
  · exact absurd hkey (hfront y (List.mem_reverse.mp hy) hys)
  · rcases List.mem_cons.mp hy with rfl | hy
    · exact le_rfl
    · rcases (h.around hsplit).2 y hy with hlt | ⟨-, hlt⟩
      · exact absurd hkey hlt.ne'
      · exact hlt.le

/-- A version behind a newer one that a reader can see is not shown. -/
theorem Before.not_shown (h : Before a b) (ha : a ∈ entries) (hs : a.sequence ≤ s)
    (hkey : a.userKey = b.userKey) : ¬ Shown entries s b := by
  rintro ⟨-, -, hnewest⟩
  rcases h with hlt | ⟨-, hseq⟩
  · exact absurd hkey hlt.ne
  · exact absurd (hnewest a ha hkey hs) (not_le.mpr hseq)

theorem nextRound_eq (h : Ordered entries) (he : e ∈ entries) (skipping : Bool) (skip : Slice) :
    nextRound s skipping skip e = if e.sequence ≤ s then
        if e.type = .deletion then some (true, e.userKey)
        else if skipping = true ∧ e.userKey ≤ skip then some (skipping, skip) else none
      else some (skipping, skip) := by
  unfold nextRound
  rw [h.parse he]
  dsimp only
  simp only [ne_eq, compareSlices_eq_gt_iff, not_lt]
  cases e.type <;> rfl

/-- **The invariant of `FindNextUserEntry`** in front of the entries `rest`: versions behind a
newer one are skipped, and nothing in front of `skip` is left. -/
structure Skips (entries : List Entry) (s : ℕ) (skipping : Bool) (skip : Slice)
    (before rest : List Entry) : Prop where
  split : entries = before.reverse ++ rest
  hidden : ∀ x ∈ rest, x.sequence ≤ s → ∀ y ∈ before, y.sequence ≤ s →
    y.userKey = x.userKey → skipping = true ∧ x.userKey ≤ skip
  lower : skipping = true → ∀ x ∈ rest, x.sequence ≤ s → skip ≤ x.userKey

section Forward

variable {skipping skipping' : Bool} {skip skip' : Slice} {before after : List Entry} {e : Entry}

section

variable (h : Skips entries s skipping skip before (e :: after))

include h

theorem Skips.mem : e ∈ entries := by
  rw [h.split]
  simp

theorem Skips.yields (hordered : Ordered entries) (hround : nextRound s skipping skip e = none) :
    Shown entries s e ∧ (skipping = true → skip < e.userKey) := by
  rw [nextRound_eq hordered h.mem] at hround
  split_ifs at hround with hseq htype hskip
  refine ⟨hordered.shown h.split hseq htype fun y hy hys hkey => ?_, fun hs => ?_⟩
  · exact hskip (h.hidden e List.mem_cons_self hseq y hy hys hkey)
  · exact not_le.mp fun hle => hskip ⟨hs, hle⟩

theorem Skips.advances (hordered : Ordered entries)
    (hround : nextRound s skipping skip e = some (skipping', skip')) :
    Skips entries s skipping' skip' (e :: before) after ∧
      firstShown entries s (fun k => skipping = true → skip < k) (e :: after) =
        firstShown entries s (fun k => skipping' = true → skip' < k) after := by
  have hsplit : entries = (e :: before).reverse ++ after := by
    rw [h.split]
    simp
  obtain ⟨hfront, hbehind⟩ := hordered.around h.split
  -- what is hidden by an entry before stays hidden
  have hhidden : ∀ x ∈ after, x.sequence ≤ s → ∀ y ∈ before, y.sequence ≤ s →
      y.userKey = x.userKey → skipping = true ∧ x.userKey ≤ skip := fun x hx =>
    h.hidden x (List.mem_cons_of_mem _ hx)
  rw [nextRound_eq hordered h.mem] at hround
  split_ifs at hround with hseq htype hskip
  · -- a deletion hides the older versions of its key
    obtain ⟨rfl, rfl⟩ := Prod.mk.inj (Option.some.inj hround)
    refine ⟨⟨hsplit, ?_, fun _ x hx _ => (hbehind x hx).key_le⟩, ?_⟩
    · intro x hx _ y hy _ hkey
      refine ⟨rfl, ?_⟩
      rcases List.mem_cons.mp hy with rfl | hy
      · exact hkey.ge
      · exact hkey ▸ (hfront y hy).key_le
    · rw [firstShown_cons_of_not fun hshown => by simp [hshown.1.2.1] at htype]
      refine firstShown_congr fun x hx hshown => ?_
      have hlt : e.userKey < x.userKey :=
        (hbehind x hx).key_le.lt_of_ne fun hkey => (hbehind x hx).not_shown h.mem hseq hkey hshown
      exact iff_of_true (fun hs => (h.lower hs e List.mem_cons_self hseq).trans_lt hlt) fun _ => hlt
  · -- a value that is hidden
    obtain ⟨rfl, rfl⟩ := Prod.mk.inj (Option.some.inj hround)
    refine ⟨⟨hsplit, ?_, fun hs x hx => h.lower hs x (List.mem_cons_of_mem _ hx)⟩, ?_⟩
    · intro x hx hxs y hy hys hkey
      rcases List.mem_cons.mp hy with rfl | hy
      · exact ⟨hskip.1, hkey ▸ hskip.2⟩
      · exact hhidden x hx hxs y hy hys hkey
    · exact firstShown_cons_of_not fun hshown =>
        absurd (hshown.2 hskip.1) (not_lt.mpr hskip.2)
  · -- an entry that is too new
    obtain ⟨rfl, rfl⟩ := Prod.mk.inj (Option.some.inj hround)
    refine ⟨⟨hsplit, ?_, fun hs x hx => h.lower hs x (List.mem_cons_of_mem _ hx)⟩, ?_⟩
    · intro x hx hxs y hy hys hkey
      rcases List.mem_cons.mp hy with rfl | hy
      · exact absurd hys hseq
      · exact hhidden x hx hxs y hy hys hkey
    · exact firstShown_cons_of_not fun hshown => hseq hshown.1.1

end

/-- Where a forward search ends. -/
def Lands (entries : List Entry) (found : Position × Bool) : Option Entry → Prop
  | none => found = (.invalid, false)
  | some e => ∃ before after, found = (.on before e after, true) ∧
      entries = before.reverse ++ e :: after

theorem Skips.lands_of_yields (h : Skips entries s skipping skip before (e :: after))
    (hordered : Ordered entries) (hround : nextRound s skipping skip e = none) :
    Lands entries (.on before e after, true)
      (firstShown entries s (fun k => skipping = true → skip < k) (e :: after)) := by
  obtain ⟨hshown, hkey⟩ := h.yields hordered hround
  rw [firstShown_cons hshown hkey]
  exact ⟨before, after, rfl, h.split⟩

/-- **`FindNextUserEntry`** ends at the next shown entry. -/
theorem findNextLoop_lands (hordered : Ordered entries)
    (h : Skips entries s skipping skip before (e :: after)) :
    Lands entries (findNextLoop s skipping skip before e after)
      (firstShown entries s (fun k => skipping = true → skip < k) (e :: after)) := by
  induction after generalizing before e skipping skip with
  | nil =>
    unfold findNextLoop
    cases hround : nextRound s skipping skip e with
    | none => exact h.lands_of_yields hordered hround
    | some next =>
      rw [(h.advances hordered hround).2]
      rfl
  | cons e' after ih =>
    unfold findNextLoop
    cases hround : nextRound s skipping skip e with
    | none => exact h.lands_of_yields hordered hround
    | some next =>
      obtain ⟨hskips, hfirst⟩ := h.advances hordered hround
      rw [hfirst]
      exact ih hskips

end Forward

/-! ## Moving backward -/

theorem prevRound_eq (h : Ordered entries) (he : e ∈ entries) (valueType : ValueType)
    (savedKey savedValue : Slice) : prevRound s valueType savedKey savedValue e =
      if e.sequence ≤ s then if valueType ≠ .deletion ∧ e.userKey < savedKey then none
        else if e.type = .deletion then some (.deletion, [], [])
        else some (.value, e.userKey, e.value) else some (valueType, savedKey, savedValue) := by
  unfold prevRound
  rw [h.parse he]
  dsimp only
  simp only [compareSlices_eq_lt_iff, extractUserKey_internalKey]
  cases e.type <;> rfl

/-- The entry that `FindPrevUserEntry` has saved. -/
def Saved (valueType : ValueType) (savedKey savedValue : Slice) : Option Entry → Prop
  | none => valueType = .deletion
  | some c => valueType = .value ∧ savedKey = c.userKey ∧ savedValue = c.value

/-- **The invariant of `FindPrevUserEntry`** behind the entries `rest`, which are in reverse: the
saved entry is shown unless a newer version of its key is still to come. -/
structure Candidate (entries : List Entry) (s : ℕ) (saved : Option Entry)
    (rest behind : List Entry) : Prop where
  split : entries = rest.reverse ++ behind
  mem : ∀ c, saved = some c → c ∈ behind
  newest : ∀ c, saved = some c → (∀ y ∈ rest, y.sequence ≤ s → y.userKey ≠ c.userKey) →
    Shown entries s c
  lower : ∀ c, saved = some c → ∀ y ∈ behind, y.sequence ≤ s → c.userKey ≤ y.userKey

section Backward

variable {saved : Option Entry} {before after : List Entry} {e : Entry}
  {valueType valueType' : ValueType} {savedKey savedKey' savedValue savedValue' : Slice}

section

variable (h : Candidate entries s saved (e :: before) after)

include h

theorem Candidate.mem_entries : e ∈ entries := by
  rw [h.split]
  simp

theorem Candidate.split_cons : entries = before.reverse ++ e :: after := by
  rw [h.split]
  simp

section

variable (hordered : Ordered entries) (hsaved : Saved valueType savedKey savedValue saved)

include hordered hsaved

theorem Candidate.breaks (hround : prevRound s valueType savedKey savedValue e = none) :
    ∃ c, saved = some c ∧ e.userKey < c.userKey ∧ Shown entries s c := by
  rw [prevRound_eq hordered h.mem_entries] at hround
  split_ifs at hround with hseq hbreak
  cases saved with
  | none => exact absurd hsaved hbreak.1
  | some c =>
    obtain ⟨-, rfl, -⟩ := hsaved
    refine ⟨c, rfl, hbreak.2, h.newest c rfl fun y hy _ hkey => ?_⟩
    rcases List.mem_cons.mp hy with rfl | hy
    · exact absurd hkey hbreak.2.ne
    · have hfront := (hordered.around h.split_cons).1 y hy
      exact absurd hkey (hfront.key_le.trans_lt hbreak.2).ne

theorem Candidate.advances (hround : prevRound s valueType savedKey savedValue e =
      some (valueType', savedKey', savedValue')) :
    ∃ saved', Saved valueType' savedKey' savedValue' saved' ∧
      Candidate entries s saved' before (e :: after) ∧
        firstShown entries s (fun _ => True) (saved.toList ++ e :: before) =
          firstShown entries s (fun _ => True) (saved'.toList ++ before) := by
  have hbehind := (hordered.around h.split_cons).2
  rw [prevRound_eq hordered h.mem_entries] at hround
  by_cases hseq : e.sequence ≤ s
  · rw [if_pos hseq] at hround
    -- a saved entry is an older version of the same key
    have hhidden : valueType ≠ .deletion ∧ e.userKey < savedKey ∨
        ∀ c ∈ saved.toList, Shown entries s c → ¬ True := by
      by_cases hbreak : valueType ≠ .deletion ∧ e.userKey < savedKey
      · exact .inl hbreak
      · refine .inr fun c hc hshown => ?_
        obtain rfl : saved = some c := Option.mem_toList.mp hc
        obtain ⟨htype, rfl, -⟩ := hsaved
        have hbefore := hbehind c (h.mem c rfl)
        have hkey : e.userKey = c.userKey :=
          hbefore.key_le.antisymm (not_lt.mp fun hlt => hbreak ⟨by simp [htype], hlt⟩)
        exact absurd hshown (hbefore.not_shown h.mem_entries hseq hkey)
    rcases hhidden with hbreak | hhidden
    · rw [if_pos hbreak] at hround
      cases hround
    · rw [firstShown_append_of_not hhidden]
      split_ifs at hround with hbreak htype
      · obtain ⟨rfl, rfl, rfl⟩ : .deletion = valueType' ∧ [] = savedKey' ∧ [] = savedValue' := by
          simpa using hround
        refine ⟨none, rfl, ⟨h.split_cons, by simp, by simp, by simp⟩, ?_⟩
        exact firstShown_cons_of_not fun hshown => by simp [hshown.1.2.1] at htype
      · obtain ⟨rfl, rfl, rfl⟩ : .value = valueType' ∧ e.userKey = savedKey' ∧
            e.value = savedValue' := by
          simpa using hround
        refine ⟨some e, ⟨rfl, rfl, rfl⟩, ⟨h.split_cons, ?_, ?_, ?_⟩, rfl⟩
        · rintro c hc
          obtain rfl := Option.some.inj hc
          exact List.mem_cons_self
        · rintro c hc hnone
          obtain rfl := Option.some.inj hc
          exact hordered.shown h.split_cons hseq htype hnone
        · rintro c hc y hy -
          obtain rfl := Option.some.inj hc
          rcases List.mem_cons.mp hy with rfl | hy
          · exact le_rfl
          · exact (hbehind y hy).key_le
  · -- an entry that is too new
    rw [if_neg hseq] at hround
    obtain ⟨rfl, rfl, rfl⟩ : valueType = valueType' ∧ savedKey = savedKey' ∧
        savedValue = savedValue' := by
      simpa using hround
    refine ⟨saved, hsaved, ⟨h.split_cons, ?_, ?_, ?_⟩, ?_⟩
    · exact fun c hc => List.mem_cons_of_mem _ (h.mem c hc)
    · intro c hc hnone
      refine h.newest c hc fun y hy hys => ?_
      rcases List.mem_cons.mp hy with rfl | hy
      · exact absurd hys hseq
      · exact hnone y hy hys
    · intro c hc y hy hys
      rcases List.mem_cons.mp hy with rfl | hy
      · exact absurd hys hseq
      · exact h.lower c hc y hy hys
    · have hskip : firstShown entries s (fun _ => True) (e :: before) =
          firstShown entries s (fun _ => True) before :=
        firstShown_cons_of_not fun hshown => hseq hshown.1.1
      unfold firstShown at hskip ⊢
      rw [List.find?_append, List.find?_append, hskip]

end

end

/-- The internal iterator is in front of the versions of `key`, and of all greater keys, that a
reader can see. -/
def InFront (entries : List Entry) (s : ℕ) (key : Slice) : Position → Prop
  | .invalid => ∀ y ∈ entries, y.sequence ≤ s → key ≤ y.userKey
  | .on before e after => entries = before.reverse ++ e :: after ∧ e.userKey < key ∧
      ∀ y ∈ after, y.sequence ≤ s → key ≤ y.userKey

/-- Where a backward search ends. -/
def LandsBack (entries : List Entry) (s : ℕ) (found : Position × ValueType × Slice × Slice) :
    Option Entry → Prop
  | none => found.2.1 = .deletion
  | some e => found.2 = (.value, e.userKey, e.value) ∧ InFront entries s e.userKey found.1

theorem Candidate.lands_of_breaks (h : Candidate entries s saved (e :: before) after)
    (hordered : Ordered entries) (hsaved : Saved valueType savedKey savedValue saved)
    (hround : prevRound s valueType savedKey savedValue e = none) :
    LandsBack entries s (.on before e after, valueType, savedKey, savedValue)
      (firstShown entries s (fun _ => True) (saved.toList ++ e :: before)) := by
  obtain ⟨c, rfl, hlt, hshown⟩ := h.breaks hordered hsaved hround
  obtain ⟨rfl, rfl, rfl⟩ := hsaved
  rw [Option.toList_some, List.singleton_append, firstShown_cons hshown trivial]
  exact ⟨rfl, h.split_cons, hlt, h.lower c rfl⟩

theorem Candidate.lands_of_end (h : Candidate entries s saved [] after)
    (hsaved : Saved valueType savedKey savedValue saved) :
    LandsBack entries s (.invalid, valueType, savedKey, savedValue)
      (firstShown entries s (fun _ => True) (saved.toList ++ [])) := by
  cases saved with
  | none => exact hsaved
  | some c =>
    obtain ⟨rfl, rfl, rfl⟩ := hsaved
    rw [Option.toList_some, List.singleton_append,
      firstShown_cons (h.newest c rfl (by simp)) trivial]
    refine ⟨rfl, fun y hy => h.lower c rfl y ?_⟩
    simpa [h.split] using hy

/-- **`FindPrevUserEntry`** saves the last shown entry. -/
theorem findPrevLoop_lands (hordered : Ordered entries)
    (h : Candidate entries s saved (e :: before) after)
    (hsaved : Saved valueType savedKey savedValue saved) :
    LandsBack entries s (findPrevLoop s valueType savedKey savedValue before e after)
      (firstShown entries s (fun _ => True) (saved.toList ++ e :: before)) := by
  induction before generalizing saved valueType savedKey savedValue e after with
  | nil =>
    unfold findPrevLoop
    cases hround : prevRound s valueType savedKey savedValue e with
    | none => exact h.lands_of_breaks hordered hsaved hround
    | some next =>
      obtain ⟨saved', hsaved', hcand, hfirst⟩ := h.advances hordered hsaved hround
      rw [hfirst]
      exact hcand.lands_of_end hsaved'
  | cons e' before ih =>
    unfold findPrevLoop
    cases hround : prevRound s valueType savedKey savedValue e with
    | none => exact h.lands_of_breaks hordered hsaved hround
    | some next =>
      obtain ⟨saved', hsaved', hcand, hfirst⟩ := h.advances hordered hsaved hround
      rw [hfirst]
      exact ih hcand hsaved'

end Backward

end DBIter

end McfKv
