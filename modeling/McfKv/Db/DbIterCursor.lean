import McfKv.Db.DbIter
import McfKv.Lib.Run

/-!
# The iterator of a database as a cursor (`db/db_iter.cc`)

`step_simulates` says that each call on a `DBIter` does what it does on a cursor over the shown
entries. The invariant is `At`: it says where the internal iterator is, in each of the two
directions, and every call restores it, those that change the direction too. `run_shows` is the
result for sequences of calls.
-/

namespace McfKv

namespace DBIter

variable {entries : List Entry} {s : ℕ}

/-! ## The cursor over the shown entries -/

/-- What is shown of an entry. -/
def pair (e : Entry) : Slice × Slice := (e.userKey, e.value)

/-- The map that a reader at `s` sees, in the order of the keys. -/
def visible (entries : List Entry) (s : ℕ) : List (Slice × Slice) :=
  Cursor.view (fun e => decide (Shown entries s e)) pair entries

section Visible

variable {P : Slice → Prop} [DecidablePred P]

theorem find?_view_eq (part : List Entry) :
    (Cursor.view (fun e => decide (Shown entries s e)) pair part).find? (fun p => P p.1) =
      (firstShown entries s P part).map pair := by
  rw [Cursor.find?_view]
  unfold firstShown pair
  simp only [decide_eq_true_eq]

theorem find?_visible :
    (visible entries s).find? (fun p => P p.1) = (firstShown entries s P entries).map pair :=
  find?_view_eq entries

theorem reverse_find?_visible : (visible entries s).reverse.find? (fun p => P p.1) =
    (firstShown entries s P entries.reverse).map pair := by
  unfold visible
  rw [Cursor.reverse_view, find?_view_eq]

theorem head?_visible :
    (visible entries s).head? = (firstShown entries s (fun _ => True) entries).map pair := by
  unfold visible firstShown
  simp only [Cursor.head?_view, and_true]

theorem getLast?_visible : (visible entries s).getLast? =
    (firstShown entries s (fun _ => True) entries.reverse).map pair := by
  unfold visible firstShown
  simp only [Cursor.getLast?_view, and_true]

theorem shown_of_firstShown {part : List Entry} {e : Entry}
    (h : firstShown entries s P part = some e) : Shown entries s e ∧ P e.userKey := by
  simpa using List.find?_some h

end Visible

/-- **Where the iterator is** while it shows the entry `e`. -/
inductive At (entries : List Entry) (s : ℕ) (it : DBIter) (e : Entry) : Prop
  | forward (before after : List Entry) (direction : it.direction = .forward)
      (iter : it.iter = .on before e after) (split : entries = before.reverse ++ e :: after)
  | reverse (direction : it.direction = .reverse) (savedKey : it.savedKey = e.userKey)
      (savedValue : it.savedValue = e.value) (front : InFront entries s e.userKey it.iter)

/-- The iterator and a cursor over the shown entries. -/
def Related (entries : List Entry) (s : ℕ) (it : DBIter) : Option (Slice × Slice) → Prop
  | none => it.valid = false
  | some c => it.valid = true ∧ ∃ e, c = pair e ∧ Shown entries s e ∧ At entries s it e

variable {it : DBIter} {before after : List Entry} {e : Entry} {key : Slice} {c : Slice × Slice}

theorem Related.shows {c : Option (Slice × Slice)} (h : Related entries s it c) : it.Shows c := by
  cases c with
  | none => exact h
  | some c =>
    obtain ⟨hvalid, e, rfl, -, hat⟩ := h
    refine ⟨hvalid, ?_⟩
    cases hat with
    | forward before after hdir hiter hsplit =>
      simp [key, value, hdir, hiter, pair]
    | reverse hdir hkey hvalue hfront =>
      simp [key, value, hdir, hkey, hvalue, pair]

theorem related_findNextUserEntry (hordered : Ordered entries) (it : DBIter) {skipping : Bool}
    {skip : Slice} (h : Skips entries s skipping skip before (e :: after)) :
    Related entries s (findNextUserEntry s it skipping skip before e after)
      ((firstShown entries s (fun k => skipping = true → skip < k) (e :: after)).map pair) := by
  have hlands := findNextLoop_lands hordered h
  unfold findNextUserEntry
  cases hfirst : firstShown entries s (fun k => skipping = true → skip < k) (e :: after) with
  | none =>
    rw [hfirst] at hlands
    rw [show findNextLoop s skipping skip before e after = (.invalid, false) from hlands]
    rfl
  | some x =>
    rw [hfirst] at hlands
    obtain ⟨before', after', hfound, hsplit⟩ := hlands
    rw [hfound]
    exact ⟨rfl, x, rfl, (shown_of_firstShown hfirst).1, .forward before' after' rfl rfl hsplit⟩

/-- The entries up to a position, in reverse. -/
def upTo : Position → List Entry
  | .invalid => []
  | .on before e _ => e :: before

theorem related_findPrevUserEntry (hordered : Ordered entries)
    (h : ∀ before e after, it.iter = .on before e after → entries = before.reverse ++ e :: after) :
    Related entries s (findPrevUserEntry s it)
      ((firstShown entries s (fun _ => True) (upTo it.iter)).map pair) := by
  unfold findPrevUserEntry
  cases hiter : it.iter with
  | invalid => rfl
  | on before e after =>
    have hcand : Candidate entries s none (e :: before) after :=
      ⟨by simpa using h before e after hiter, by simp, by simp, by simp⟩
    have hlands := findPrevLoop_lands hordered hcand
      (show Saved .deletion it.savedKey it.savedValue none from rfl)
    dsimp only [upTo]
    obtain ⟨⟨pos, valueType, savedKey, savedValue⟩, hfound⟩ :
        ∃ found, found = findPrevLoop s .deletion it.savedKey it.savedValue before e after :=
      ⟨_, rfl⟩
    rw [← hfound] at hlands ⊢
    rw [Option.toList_none, List.nil_append] at hlands
    cases hfirst : firstShown entries s (fun _ => True) (e :: before) with
    | none =>
      rw [hfirst] at hlands
      obtain rfl : valueType = .deletion := hlands
      rfl
    | some x =>
      rw [hfirst] at hlands
      obtain ⟨hsaved, hfront⟩ := hlands
      obtain ⟨rfl, rfl, rfl⟩ : valueType = .value ∧ savedKey = x.userKey ∧
          savedValue = x.value := by simpa using hsaved
      exact ⟨rfl, x, rfl, (shown_of_firstShown hfirst).1, .reverse rfl rfl rfl hfront⟩

/-! ## The calls -/

theorem position_seek (target : Slice) (before rest : List Entry) :
    (Position.seek target before rest = .invalid ∧
      ∀ x ∈ rest, internalKeyCompare x.internalKey target = .lt) ∨
    ∃ mid e after, Position.seek target before rest = .on (mid.reverse ++ before) e after ∧
      rest = mid ++ e :: after ∧ (∀ x ∈ mid, internalKeyCompare x.internalKey target = .lt) ∧
        internalKeyCompare e.internalKey target ≠ .lt := by
  induction rest generalizing before with
  | nil => exact .inl ⟨rfl, by simp⟩
  | cons x rest ih =>
    unfold Position.seek
    by_cases hx : internalKeyCompare x.internalKey target = .lt
    · rw [if_pos hx]
      rcases ih (x :: before) with ⟨hseek, hall⟩ | ⟨mid, e, after, hseek, hrest, hmid, he⟩
      · exact .inl ⟨hseek, List.forall_mem_cons.mpr ⟨hx, hall⟩⟩
      · refine .inr ⟨x :: mid, e, after, ?_, by rw [hrest]; rfl,
          List.forall_mem_cons.mpr ⟨hx, hmid⟩, he⟩
        rw [hseek]
        simp
    · rw [if_neg hx]
      exact .inr ⟨[], x, rest, rfl, rfl, by simp, hx⟩

theorem related_seek (hordered : Ordered entries) (hs : s ≤ maxSequenceNumber) (it : DBIter)
    (target : Slice) : Related entries s (it.seek entries s target)
      ((visible entries s).find? fun p => target ≤ p.1) := by
  rw [find?_visible]
  -- an entry in front of the lookup key has a smaller user key, or is too new
  have hless : ∀ x ∈ entries, internalKeyCompare x.internalKey (lookupKey target s) = .lt →
      x.sequence ≤ s → x.userKey < target := by
    intro x hx hlt hxs
    by_contra hge
    refine absurd hlt ((not_before_lookupKey_iff (hordered.range x hx) hs).mpr ?_)
    rcases (not_lt.mp hge).lt_or_eq with hgt | heq
    · exact .inl hgt
    · exact .inr ⟨heq.symm, hxs⟩
  unfold seek
  rcases position_seek (lookupKey target s) [] entries with
    ⟨hseek, hall⟩ | ⟨mid, e, after, hseek, hsplit, hmid, he⟩
  · rw [hseek, firstShown_eq_none fun x hx hshown =>
      not_le.mpr (hless x hx (hall x hx) hshown.1)]
    rfl
  · rw [hseek, List.append_nil]
    dsimp only
    have hmem : ∀ x ∈ mid, x ∈ entries := fun x hx => by
      rw [hsplit]
      exact List.mem_append_left _ hx
    have hsplit' : entries = mid.reverse.reverse ++ e :: after := by simpa using hsplit
    have hentry : target ≤ e.userKey := by
      rcases (not_before_lookupKey_iff (hordered.range e (by simp [hsplit])) hs).mp he with
        hlt | ⟨heq, -⟩
      · exact hlt.le
      · exact heq.ge
    have hgreater : ∀ x ∈ e :: after, target ≤ x.userKey := by
      intro x hx
      rcases List.mem_cons.mp hx with rfl | hx
      · exact hentry
      · exact hentry.trans ((hordered.around hsplit').2 x hx).key_le
    have hskips : Skips entries s false (lookupKey target s) mid.reverse (e :: after) := by
      refine ⟨hsplit', ?_, by simp⟩
      intro x hx _ y hy hys hkey
      rw [List.mem_reverse] at hy
      exact absurd hkey ((hless y (hmem y hy) (hmid y hy) hys).trans_le (hgreater x hx)).ne
    have hfirst : firstShown entries s (fun k => target ≤ k) entries =
        firstShown entries s (fun k => false = true → lookupKey target s < k) (e :: after) := by
      rw [firstShown_of_split hsplit fun x hx hshown =>
        not_le.mpr (hless x (hmem x hx) (hmid x hx) hshown.1)]
      exact firstShown_congr fun x hx _ => iff_of_true (hgreater x hx) (by simp)
    rw [hfirst]
    exact related_findNextUserEntry hordered _ hskips

theorem related_seekToFirst (hordered : Ordered entries) (it : DBIter) :
    Related entries s (it.seekToFirst entries s) (visible entries s).head? := by
  rw [head?_visible]
  unfold seekToFirst Position.seekToFirst
  cases entries with
  | nil => rfl
  | cons e after =>
    have hfirst : firstShown (e :: after) s (fun _ => True) (e :: after) =
        firstShown (e :: after) s (fun k => false = true → it.savedKey < k) (e :: after) :=
      firstShown_congr fun x _ _ => iff_of_true trivial (by simp)
    rw [hfirst]
    exact related_findNextUserEntry hordered _ ⟨rfl, by simp, by simp⟩

theorem related_seekToLast (hordered : Ordered entries) (it : DBIter) :
    Related entries s (it.seekToLast entries s) (visible entries s).getLast? := by
  have hpos : ∀ before e after, Position.seekToLast entries = .on before e after →
      entries = before.reverse ++ e :: after := by
    intro before e after hiter
    unfold Position.seekToLast at hiter
    cases hreverse : entries.reverse with
    | nil => simp [hreverse] at hiter
    | cons x rest =>
      obtain ⟨rfl, rfl, rfl⟩ : rest = before ∧ x = e ∧ [] = after := by
        simpa [hreverse] using hiter
      rw [← List.reverse_reverse entries, hreverse]
      simp
  have hup : upTo (Position.seekToLast entries) = entries.reverse := by
    unfold Position.seekToLast
    cases entries.reverse with
    | nil => rfl
    | cons x rest => rfl
  obtain ⟨it', hit'⟩ : ∃ it' : DBIter, it' =
      { it with iter := Position.seekToLast entries, savedValue := [], direction := .reverse } :=
    ⟨_, rfl⟩
  have hiter : it'.iter = Position.seekToLast entries := by rw [hit']
  unfold seekToLast
  rw [getLast?_visible, ← hup, ← hit', ← hiter]
  exact related_findPrevUserEntry hordered (hiter ▸ hpos)

theorem reverse_split (hsplit : entries = before.reverse ++ e :: after) :
    entries.reverse = after.reverse ++ e :: before := by
  rw [hsplit]
  simp

theorem InFront.parts (hordered : Ordered entries) {pos : Position}
    (h : InFront entries s key pos) :
    ∃ rest, entries = (upTo pos).reverse ++ rest ∧ (∀ x ∈ upTo pos, x.userKey < key) ∧
      (∀ y ∈ rest, y.sequence ≤ s → key ≤ y.userKey) ∧ (rest = [] ∧ pos.enter entries = .invalid ∨
          ∃ e after, rest = e :: after ∧ pos.enter entries = .on (upTo pos) e after) := by
  cases pos with
  | invalid =>
    refine ⟨entries, rfl, by simp [upTo], h, ?_⟩
    cases entries with
    | nil => exact .inl ⟨rfl, rfl⟩
    | cons e after => exact .inr ⟨e, after, rfl, rfl⟩
  | on before e after =>
    obtain ⟨hsplit, hlt, hbehind⟩ := h
    refine ⟨after, by rw [hsplit]; simp [upTo], ?_, hbehind, ?_⟩
    · exact List.forall_mem_cons.mpr
        ⟨hlt, fun x hx => ((hordered.around hsplit).1 x hx).key_le.trans_lt hlt⟩
    · cases after with
      | nil => exact .inl ⟨rfl, rfl⟩
      | cons e' after => exact .inr ⟨e', after, rfl, rfl⟩

theorem related_next (hordered : Ordered entries) (h : Related entries s it (some c)) :
    ∃ it', it.next entries s = some it' ∧
      Related entries s it' ((visible entries s).find? fun p => c.1 < p.1) := by
  obtain ⟨hvalid, e, rfl, -, hat⟩ := h
  show ∃ it', _ ∧ Related entries s it' ((visible entries s).find? fun p => e.userKey < p.1)
  rw [find?_visible]
  unfold next
  rw [if_pos hvalid]
  cases hat with
  | forward before after hdir hiter hsplit =>
    obtain ⟨hbefore, hafter⟩ := hordered.around hsplit
    have hrest : ∀ x ∈ e :: after, e.userKey ≤ x.userKey :=
      List.forall_mem_cons.mpr ⟨le_rfl, fun x hx => (hafter x hx).key_le⟩
    have hskips : Skips entries s true e.userKey before (e :: after) := by
      refine ⟨hsplit, fun x _ _ y hy _ hkey => ⟨rfl, ?_⟩, fun _ x hx _ => hrest x hx⟩
      exact hkey ▸ (hbefore y hy).key_le
    have hfirst : firstShown entries s (fun k => e.userKey < k) entries =
        firstShown entries s (fun k => true = true → e.userKey < k) (e :: after) := by
      rw [firstShown_of_split hsplit fun x hx _ =>
        not_lt.mpr (hbefore x (List.mem_reverse.mp hx)).key_le]
      exact firstShown_congr fun x _ _ => by simp
    rw [hdir, hiter]
    refine ⟨_, rfl, ?_⟩
    rw [extractUserKey_internalKey, hfirst]
    exact related_findNextUserEntry hordered it hskips
  | reverse hdir hkey hvalue hfront =>
    obtain ⟨rest, hsplit, hless, hbehind, hnext⟩ := hfront.parts hordered
    have hfirst : firstShown entries s (fun k => e.userKey < k) entries =
        firstShown entries s (fun k => true = true → e.userKey < k) rest := by
      rw [firstShown_of_split hsplit fun x hx _ =>
        (hless x (List.mem_reverse.mp hx)).asymm]
      exact firstShown_congr fun x _ _ => by simp
    rw [hdir, hfirst]
    dsimp only
    rcases hnext with ⟨rfl, henter⟩ | ⟨x, after, rfl, henter⟩
    · rw [henter]
      exact ⟨_, rfl, rfl⟩
    · rw [henter, hkey]
      refine ⟨_, rfl, related_findNextUserEntry hordered it ⟨hsplit, ?_, fun _ => hbehind⟩⟩
      intro y hy hys z hz _ hsame
      exact absurd hsame ((hless z hz).trans_le (hbehind y hy hys)).ne

theorem scanBack_spec (key : Slice) (hsplit : entries = before.reverse ++ e :: after) :
    (scanBack key before e after = .invalid ∧ ∀ x ∈ before, ¬ x.userKey < key) ∨
    ∃ mid e' before' after', scanBack key before e after = .on before' e' after' ∧
      before = mid ++ e' :: before' ∧ (∀ x ∈ mid, ¬ x.userKey < key) ∧ e'.userKey < key ∧
        entries = before'.reverse ++ e' :: after' := by
  induction before generalizing e after with
  | nil => exact .inl ⟨rfl, by simp⟩
  | cons x before ih =>
    have hsplit' : entries = before.reverse ++ x :: e :: after := by
      rw [hsplit]
      simp
    unfold scanBack
    simp only [extractUserKey_internalKey, compareSlices_eq_lt_iff]
    by_cases hx : x.userKey < key
    · rw [if_pos hx]
      exact .inr ⟨[], x, before, e :: after, rfl, rfl, by simp, hx, hsplit'⟩
    · rw [if_neg hx]
      rcases ih hsplit' with ⟨hscan, hall⟩ | ⟨mid, e', before', after', hscan, hmid, hall, hrest⟩
      · exact .inl ⟨hscan, List.forall_mem_cons.mpr ⟨hx, hall⟩⟩
      · exact .inr ⟨x :: mid, e', before', after', hscan, by rw [hmid]; rfl,
          List.forall_mem_cons.mpr ⟨hx, hall⟩, hrest⟩

theorem firstShown_less {part : List Entry} (h : ∀ x ∈ part, x.userKey < key) :
    firstShown entries s (fun k => k < key) part = firstShown entries s (fun _ => True) part :=
  firstShown_congr fun x hx _ => iff_of_true (h x hx) trivial

theorem related_prev (hordered : Ordered entries) (h : Related entries s it (some c)) :
    ∃ it', it.prev s = some it' ∧
      Related entries s it' ((visible entries s).reverse.find? fun p => p.1 < c.1) := by
  obtain ⟨hvalid, e, rfl, -, hat⟩ := h
  show ∃ it', _ ∧ Related entries s it' ((visible entries s).reverse.find? fun p => p.1 < e.userKey)
  rw [reverse_find?_visible (P := fun k => k < e.userKey)]
  unfold prev
  rw [if_pos hvalid]
  cases hat with
  | forward before after hdir hiter hsplit =>
    obtain ⟨hbefore, hafter⟩ := hordered.around hsplit
    have hfirst : firstShown entries s (fun k => k < e.userKey) entries.reverse =
        firstShown entries s (fun k => k < e.userKey) before := by
      refine (firstShown_of_split (reverse_split hsplit) fun x hx _ => ?_).trans ?_
      · exact not_lt.mpr (hafter x (List.mem_reverse.mp hx)).key_le
      · exact firstShown_cons_of_not fun hlt => lt_irrefl _ hlt.2
    rw [hdir, hiter, hfirst]
    dsimp only
    rw [extractUserKey_internalKey]
    rcases scanBack_spec e.userKey hsplit with
      ⟨hscan, hall⟩ | ⟨mid, e', before', after', hscan, hmid, hall, hlt, hsplit'⟩
    · rw [hscan, firstShown_eq_none fun x hx _ => hall x hx]
      exact ⟨_, rfl, rfl⟩
    · have hless : ∀ x ∈ e' :: before', x.userKey < e.userKey :=
        List.forall_mem_cons.mpr
          ⟨hlt, fun x hx => ((hordered.around hsplit').1 x hx).key_le.trans_lt hlt⟩
      rw [hscan, firstShown_of_split hmid fun x hx _ => hall x hx, firstShown_less hless]
      refine ⟨_, rfl, ?_⟩
      obtain ⟨it', hit'⟩ : ∃ it' : DBIter, it' =
          { it with iter := .on before' e' after', savedKey := e.userKey, direction := .reverse } :=
        ⟨_, rfl⟩
      have hiter' : it'.iter = .on before' e' after' := by rw [hit']
      rw [← hit', show e' :: before' = upTo it'.iter by rw [hiter']; rfl]
      refine related_findPrevUserEntry hordered fun b x a hx => ?_
      obtain ⟨rfl, rfl, rfl⟩ : before' = b ∧ e' = x ∧ after' = a := by
        simpa [hiter'] using hx
      exact hsplit'
  | reverse hdir hkey hvalue hfront =>
    obtain ⟨rest, hsplit, hless, hbehind, -⟩ := hfront.parts hordered
    have hreverse : entries.reverse = rest.reverse ++ upTo it.iter := by
      rw [hsplit]
      simp
    have hfirst : firstShown entries s (fun k => k < e.userKey) entries.reverse =
        firstShown entries s (fun _ => True) (upTo it.iter) := by
      refine (firstShown_of_split hreverse fun x hx hshown => ?_).trans (firstShown_less hless)
      exact not_lt.mpr (hbehind x (List.mem_reverse.mp hx) hshown.1)
    rw [hdir, hfirst]
    refine ⟨_, rfl, related_findPrevUserEntry hordered fun before x after hiter => ?_⟩
    rw [hiter] at hfront
    exact hfront.1

/-- **A call on the iterator does what it does on the cursor.** -/
theorem step_simulates (hordered : Ordered entries) (hs : s ≤ maxSequenceNumber) (it : DBIter)
    (c : Option (Slice × Slice)) (op : Cursor.Op Slice) (h : Related entries s it c) :
    Option.Rel (Related entries s) (it.step entries s op)
      (Cursor.step (visible entries s) c op) := by
  cases op with
  | seek target => exact .some (related_seek hordered hs it target)
  | seekToFirst => exact .some (related_seekToFirst hordered it)
  | seekToLast => exact .some (related_seekToLast hordered it)
  | next =>
    cases c with
    | none =>
      have hnext : it.next entries s = none := if_neg (by simp [show it.valid = false from h])
      show Option.Rel _ (it.next entries s) _
      rw [hnext]
      exact .none
    | some c =>
      obtain ⟨it', hnext, hrelated⟩ := related_next hordered h
      have hcursor : Cursor.step (visible entries s) (some c) .next =
          some ((visible entries s).find? fun p => c.1 < p.1) := by
        simp only [Cursor.step]
        congr 2
        funext p
        exact decide_eq_decide.mpr Iff.rfl
      show Option.Rel _ (it.next entries s) _
      rw [hnext, hcursor]
      exact .some hrelated
  | prev =>
    cases c with
    | none =>
      have hprev : it.prev s = none := if_neg (by simp [show it.valid = false from h])
      show Option.Rel _ (it.prev s) _
      rw [hprev]
      exact .none
    | some c =>
      obtain ⟨it', hprev, hrelated⟩ := related_prev hordered h
      have hcursor : Cursor.step (visible entries s) (some c) .prev =
          some ((visible entries s).reverse.find? fun p => p.1 < c.1) := by
        simp only [Cursor.step]
        congr 2
        funext p
        exact decide_eq_decide.mpr Iff.rfl
      show Option.Rel _ (it.prev s) _
      rw [hprev, hcursor]
      exact .some hrelated

/-! ## The visible map -/

/-- The map of the newest versions at `s` that are values, as a list in the order of the keys. -/
structure IsVisibleMap (entries : List Entry) (s : ℕ) (V : List (Slice × Slice)) : Prop where
  sorted : V.Pairwise fun p q => p.1 < q.1
  mem_iff : ∀ k v, (k, v) ∈ V ↔
    ∃ e, Versions.Sees Entry.userKey Entry.sequence entries k s e ∧ e.type = .value ∧ e.value = v

theorem shown_iff_sees (e : Entry) (he : e ∈ entries) : Shown entries s e ↔
    Versions.Sees Entry.userKey Entry.sequence entries e.userKey s e ∧ e.type = .value :=
  ⟨fun h => ⟨⟨he, rfl, h.1, h.2.2⟩, h.2.1⟩, fun h => ⟨h.1.le, h.2, h.1.newest⟩⟩

theorem isVisibleMap_visible (hordered : Ordered entries) :
    IsVisibleMap entries s (visible entries s) where
  sorted := by
    unfold visible Cursor.view
    refine List.pairwise_map.mpr ((hordered.before.filter _).imp_of_mem ?_)
    intro x y hx hy hbefore
    obtain ⟨hx, hxshown⟩ := List.mem_filter.mp hx
    obtain ⟨-, hyshown⟩ := List.mem_filter.mp hy
    refine hbefore.key_le.lt_of_ne fun hkey => ?_
    exact hbefore.not_shown hx (of_decide_eq_true hxshown).1 hkey (of_decide_eq_true hyshown)
  mem_iff := by
    intro k v
    unfold visible Cursor.view
    rw [List.mem_map]
    constructor
    · rintro ⟨e, he, heq⟩
      obtain ⟨rfl, rfl⟩ := Prod.mk.inj heq
      obtain ⟨he, hshown⟩ := List.mem_filter.mp he
      obtain ⟨hsees, htype⟩ := (shown_iff_sees e he).mp (of_decide_eq_true hshown)
      exact ⟨e, hsees, htype, rfl⟩
    · rintro ⟨e, hsees, htype, rfl⟩
      obtain rfl := hsees.key_eq
      exact ⟨e, List.mem_filter.mpr ⟨hsees.mem,
        decide_eq_true ((shown_iff_sees e hsees.mem).mpr ⟨hsees, htype⟩)⟩, rfl⟩

theorem ordered_of_sorted (hsorted : Sorted entries)
    (hdistinct : entries.Pairwise fun x y => (x.userKey, x.sequence) ≠ (y.userKey, y.sequence)) :
    Ordered entries where
  before := by
    refine (hsorted.versions.and hdistinct).imp ?_
    rintro x y ⟨hlt | ⟨heq, hle⟩, hne⟩
    · exact .inl hlt
    · exact .inr ⟨heq, hle.lt_of_ne fun hseq => hne (Prod.ext heq hseq.symm)⟩
  range := hsorted.range

/-- **The iterator shows the visible map**: after every sequence of calls it shows what a cursor
over that map shows, and no assertion fails that the cursor does not exclude. -/
theorem run_shows (hsorted : Sorted entries)
    (hdistinct : entries.Pairwise fun x y => (x.userKey, x.sequence) ≠ (y.userKey, y.sequence))
    (hs : s ≤ maxSequenceNumber) :
    ∃ V, IsVisibleMap entries s V ∧ ∀ ops : List (Cursor.Op Slice),
      Option.Rel Shows (Run.runFrom (step entries s) new ops)
        (Run.runFrom (Cursor.step V) none ops) := by
  have hordered := ordered_of_sorted hsorted hdistinct
  refine ⟨visible entries s, isVisibleMap_visible hordered, fun ops => ?_⟩
  exact Run.rel_mono (fun _ _ => Related.shows) (Run.runFrom_rel (step_simulates hordered hs)
    (show Related entries s new none from rfl) ops)

/-- Two keys: a version of the first is too new for a reader at 3, and the second is deleted. -/
def deletedKey : List Entry :=
  [⟨[97], 4, .value, [1]⟩, ⟨[97], 1, .value, [2]⟩, ⟨[98], 3, .deletion, []⟩,
    ⟨[98], 2, .value, [3]⟩]

theorem run_shows_deletedKey : ∃ V, IsVisibleMap deletedKey 3 V ∧
    Option.Rel Shows (Run.runFrom (step deletedKey 3) new [.seekToLast, .prev])
      (Run.runFrom (Cursor.step V) none [.seekToLast, .prev]) := by
  obtain ⟨V, hV, hrun⟩ := run_shows (show Sorted deletedKey from ⟨by decide, by decide⟩)
    (by decide) (show 3 ≤ maxSequenceNumber by decide)
  exact ⟨V, hV, hrun _⟩

end DBIter

end McfKv
