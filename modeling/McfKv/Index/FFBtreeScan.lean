import McfKv.Index.FFBtreeIterator

/-!
# Scanning the FAST and FAIR tree (`multi-cuckoo-index/ff_btree_iterator.cc`)

A scan positions an `FFBtreeIterator` with `SeekToFirst` or `Seek`, reads the entry it stands
on, and calls `Next` for as long as the iterator is valid. `Next` finds out one step ahead
that there are no more entries: when it arrives at the last entry it sets `last`, and the call
after that only makes the iterator invalid.

This goes wrong in three ways. A seek that lands on the last entry does not set `last`, so the
call of `Next` after it stays there, and the entry is read twice. No seek clears `last`, so an
iterator that has come to the end once reads one entry only. And `SeekToFirst` makes the
iterator valid on an empty tree, where it stands on a record with no value.
-/

namespace McfKv.Btree

open Fence

/-! ## The functions -/

namespace FFBtreeIterator

/-- `FFBtreeIterator::SeekToFirst`; `last` is left as it is. -/
def seekToFirst (it : FFBtreeIterator) (t : Tree) : Option FFBtreeIterator :=
  (t.firstLeaf t.height t.root).map fun a => { it with curPage := a, index := 0, valid := true }

/-- The move of `FFBtreeIterator::Next` from a record of the page `p`. -/
def move (it : FFBtreeIterator) (p : Page) : FFBtreeIterator :=
  if p.ptr (it.index + 1) = 0 then
    if p.siblingPtr ≠ 0 then { it with curPage := p.siblingPtr, index := 0 } else it
  else { it with index := it.index + 1 }

/-- `FFBtreeIterator::Next`. -/
def next (it : FFBtreeIterator) (t : Tree) : Option FFBtreeIterator :=
  if it.last then some { it with valid := false }
  else
    (t.heap it.curPage).bind fun p =>
      (t.heap (it.move p).curPage).map fun p' =>
        if p'.ptr ((it.move p).index + 1) = 0 ∧ p'.siblingPtr = 0 then
          { it.move p with last := true }
        else it.move p

/-- Read the entry and call `Next`, while the iterator is valid: the entries that are read, and
the iterator at the end. -/
def scan (t : Tree) : (fuel : ℕ) → FFBtreeIterator → Option (List (ℕ × Addr) × FFBtreeIterator)
  | 0, _ => none
  | fuel + 1, it =>
    if it.valid then
      (t.heap it.curPage).bind fun p => (it.next t).bind fun it' =>
        (scan t fuel it').map fun r => ((p.key it.index, p.ptr it.index) :: r.1, r.2)
    else some ([], it)

/-- The scan from an iterator reads these entries and then finds the iterator invalid. -/
def Yields (it : FFBtreeIterator) (t : Tree) (es : List (ℕ × Addr)) : Prop :=
  ∃ fuel it', scan t fuel it = some (es, it')

end FFBtreeIterator

/-! ## The entries from a key on -/

/-- The entries of a map from a key on, in ascending order of their keys. -/
structure EntriesFrom (m : ℕ → Option Addr) (k : ℕ) (es : List (ℕ × Addr)) : Prop where
  sorted : es.Pairwise fun e e' => e.1 < e'.1
  mem : ∀ x y, (x, y) ∈ es ↔ m x = some y ∧ k ≤ x

section EntriesFrom

variable {m : ℕ → Option Addr} {k k' : ℕ} {es es' : List (ℕ × Addr)} {e : ℕ × Addr}

theorem EntriesFrom.congr (h : EntriesFrom m k es)
    (hkeys : ∀ x y, m x = some y → (k ≤ x ↔ k' ≤ x)) : EntriesFrom m k' es :=
  ⟨h.sorted, fun x y => (h.mem x y).trans (and_congr_right fun hy => hkeys x y hy)⟩

theorem EntriesFrom.cons (h : EntriesFrom m k (e :: es)) {y : Addr} (hy : m k = some y) :
    e = (k, y) ∧ EntriesFrom m (k + 1) es := by
  obtain ⟨hhead, hsorted⟩ := List.pairwise_cons.mp h.sorted
  have hle : k ≤ e.1 := ((h.mem e.1 e.2).mp List.mem_cons_self).2
  have he : e = (k, y) := by
    rcases List.mem_cons.mp ((h.mem k y).mpr ⟨hy, le_rfl⟩) with heq | hmem
    · exact heq.symm
    · exact absurd (hhead _ hmem) (not_lt.mpr hle)
  subst he
  refine ⟨rfl, hsorted, fun x y' => ?_⟩
  constructor
  · intro hmem
    exact ⟨((h.mem x y').mp (List.mem_cons_of_mem _ hmem)).1, hhead _ hmem⟩
  · rintro ⟨hx, hlt⟩
    refine List.mem_of_ne_of_mem ?_ ((h.mem x y').mpr ⟨hx, (Nat.le_succ k).trans hlt⟩)
    exact fun heq => absurd (congrArg Prod.fst heq) (Nat.lt_of_succ_le hlt).ne'

theorem EntriesFrom.eq_nil_iff (h : EntriesFrom m k es) :
    es = [] ↔ ∀ x y, m x = some y → x < k := by
  constructor
  · rintro rfl x y hy
    by_contra hle
    exact absurd ((h.mem x y).mpr ⟨hy, not_lt.mp hle⟩) List.not_mem_nil
  · intro hall
    refine List.eq_nil_iff_forall_not_mem.mpr fun e he => ?_
    obtain ⟨hy, hle⟩ := (h.mem e.1 e.2).mp he
    exact absurd (hall _ _ hy) (not_lt.mpr hle)

/-- A map with finitely many keys has its entries in a list. -/
theorem exists_entriesFrom {keys : List ℕ} (hsorted : keys.Pairwise (· < ·))
    (hkeys : ∀ x, x ∈ keys ↔ m x ≠ none) (k : ℕ) : ∃ es, EntriesFrom m k es := by
  refine ⟨(keys.filter (k ≤ ·)).map fun x => (x, (m x).getD 0), ?_, fun x y => ?_⟩
  · exact List.pairwise_map.mpr (hsorted.sublist List.filter_sublist)
  · simp only [List.mem_map, List.mem_filter, decide_eq_true_eq, Prod.mk.injEq, hkeys]
    constructor
    · rintro ⟨x, ⟨hne, hle⟩, rfl, rfl⟩
      obtain ⟨y, hy⟩ := Option.ne_none_iff_exists'.mp hne
      exact ⟨by rw [hy, Option.getD_some], hle⟩
    · rintro ⟨hy, hle⟩
      exact ⟨x, ⟨by rw [hy]; exact Option.some_ne_none y, hle⟩, rfl, by rw [hy, Option.getD_some]⟩

end EntriesFrom

/-! ## One call of `Next` -/

/-- The iterator stands on a record of a leaf. -/
structure Place (t : Tree) (S : Shape) (it : FFBtreeIterator) (lo : ℕ) (p : Page) (n : ℕ) :
    Prop where
  addr : S.addr 0 lo = some it.curPage
  heap : t.heap it.curPage = some p
  node : S.NodeOk .tight 0 lo p n
  lt : it.index < n

/-- The iterator stands on the first one of the entries. -/
def At (t : Tree) (S : Shape) (it : FFBtreeIterator) (es : List (ℕ × Addr)) : Prop :=
  ∃ lo p n, Place t S it lo p n ∧ EntriesFrom S.map (p.key it.index) es

section Next

variable {alloc : ℕ → Addr} {t : Tree} {S : Shape} {it : FFBtreeIterator} {lo n : ℕ} {p : Page}
  {e : ℕ × Addr} {es : List (ℕ × Addr)}

section

variable (h : Place t S it lo p n)

include h

theorem Place.entry :
    S.map (p.key it.index) = some (p.ptr it.index) ∧ Covers (S.fences 0) (p.key it.index) lo := by
  have hentry := (h.node.has _ _).mp ⟨it.index, h.lt, rfl, rfl⟩
  exact ⟨hentry.1, hentry.2.1⟩

theorem Place.held {x : ℕ} {y : Addr} (hy : S.map x = some y) (hx : Covers (S.fences 0) x lo) :
    ∃ i < n, p.key i = x := by
  obtain ⟨i, hi, hkey, -⟩ := (h.node.has x y).mpr ⟨hy, hx, fun h0 => absurd rfl h0, id⟩
  exact ⟨i, hi, hkey⟩

theorem Place.ptr_eq_zero_iff : p.ptr (it.index + 1) = 0 ↔ it.index + 1 = n := by
  have hlt := h.lt
  constructor
  · intro h0
    by_contra hne
    exact h.node.sound.ptr_ne (it.index + 1) (by omega) h0
  · rintro rfl
    exact h.node.sound.ptr_end

theorem Place.next_le {x : ℕ} {y : Addr} (hy : S.map x = some y) (hx : Covers (S.fences 0) x lo)
    (hlt : p.key it.index < x) : it.index + 1 < n ∧ p.key (it.index + 1) ≤ x := by
  obtain ⟨i, hi, rfl⟩ := h.held hy hx
  have hindex : it.index < i := by
    by_contra hle
    exact absurd (h.node.sound.key_le (not_lt.mp hle) h.lt) (not_le.mpr hlt)
  exact ⟨by omega, h.node.sound.key_le hindex hi⟩

theorem Place.step (hlt : it.index + 1 < n) : Place t S { it with index := it.index + 1 } lo p n :=
  ⟨h.addr, h.heap, h.node, hlt⟩

/-- **The next record of the page** is the next entry. -/
theorem Place.step_entries (hlt : it.index + 1 < n)
    (hes : EntriesFrom S.map (p.key it.index + 1) es) :
    EntriesFrom S.map (p.key (it.index + 1)) es := by
  refine hes.congr fun x y hy => ⟨fun hle => ?_, fun hle => ?_⟩
  · rcases le_or_gt (p.key (it.index + 1)) x with hge | hbelow
    · exact hge
    · have hcov : Covers (S.fences 0) x lo :=
        (h.step hlt).entry.2.of_le (h.entry.2.2.1.trans (Nat.le_of_succ_le hle)) hbelow.le
      exact (h.next_le hy hcov hle).2
  · exact (h.node.sound.sorted _ _ (Nat.lt_succ_self it.index) hlt).trans_le hle

end

section

variable (hrep : Rep alloc t S .tight) (h : Place t S it lo p n)

include hrep h

/-- **The first record of the sibling** is the next entry behind the last record of a page. -/
theorem Place.sibling_entries (hend : it.index + 1 = n) {z : ℕ} (hnext : IsNext (S.fences 0) lo z)
    (hz : S.addr 0 z = some p.siblingPtr) (hes : EntriesFrom S.map (p.key it.index + 1) es) :
    ∃ p' n', Place t S { it with curPage := p.siblingPtr, index := 0 } z p' n' ∧
      EntriesFrom S.map (p'.key 0) es := by
  obtain ⟨p', n', hheap, hp'⟩ := hrep.page 0 z _ hz
  have hpos : 0 < n' := hp'.pos (Or.inr (Nat.ne_zero_of_lt hnext.2.1))
  have hplace : Place t S { it with curPage := p.siblingPtr, index := 0 } z p' n' :=
    ⟨hz, hheap, hp', hpos⟩
  have hfirst := hplace.entry.2
  refine ⟨p', n', hplace, hes.congr fun x y hy => ⟨fun hle => ?_, fun hle => ?_⟩⟩
  · -- a key in front of the sibling would be a key of this page
    rcases lt_or_ge x z with hbelow | hge
    · have hcov := hnext.covers h.entry.2.1 (h.entry.2.2.1.trans (Nat.le_of_succ_le hle)) hbelow
      have := (h.next_le hy hcov hle).1
      omega
    · rcases le_or_gt (p'.key 0) x with hfine | hbelow
      · exact hfine
      · obtain ⟨i, hi, rfl⟩ := hplace.held hy (hfirst.of_le hge hbelow.le)
        exact hp'.sound.key_le (Nat.zero_le i) hi
  · exact (h.entry.2.lt_of_lt hnext.1 hnext.2.1).trans_le (hfirst.2.1.trans hle)

/-- **The test for the end**: there is no entry behind the record. -/
theorem Place.atEnd_iff (hes : EntriesFrom S.map (p.key it.index + 1) es) :
    (p.ptr (it.index + 1) = 0 ∧ p.siblingPtr = 0) ↔ es = [] := by
  rw [h.ptr_eq_zero_iff]
  constructor
  · rintro ⟨hend, h0⟩
    have hlast : IsLast (S.fences 0) lo := by
      rcases h.node.sibling with ⟨hlast, -⟩ | ⟨z, -, hz⟩
      · exact hlast
      · exact absurd h0 (hrep.ok.nonnull _ _ _ hz)
    refine hes.eq_nil_iff.mpr fun x y hy => ?_
    by_contra hle
    have hlt : p.key it.index < x := not_lt.mp hle
    have hcov := hlast.covers h.entry.2.1 (h.entry.2.2.1.trans hlt.le)
    have := (h.next_le hy hcov hlt).1
    omega
  · rintro rfl
    have hend : it.index + 1 = n := by
      by_contra hne
      have hlt : it.index + 1 < n := lt_of_le_of_ne h.lt hne
      have hmem := ((h.step_entries hlt hes).mem _ _).mpr ⟨(h.step hlt).entry.1, le_rfl⟩
      exact absurd hmem List.not_mem_nil
    refine ⟨hend, ?_⟩
    rcases h.node.sibling with ⟨-, h0⟩ | ⟨z, hnext, hz⟩
    · exact h0
    · obtain ⟨p', n', hplace, hes'⟩ := h.sibling_entries hrep hend hnext hz hes
      exact absurd ((hes'.mem _ _).mpr ⟨hplace.entry.1, le_rfl⟩) List.not_mem_nil

theorem Place.move (hes : EntriesFrom S.map (p.key it.index + 1) es) :
    if es = [] then it.move p = it else ∃ lo' p' n', Place t S (it.move p) lo' p' n' ∧
      EntriesFrom S.map (p'.key (it.move p).index) es := by
  have hend := h.atEnd_iff hrep hes
  unfold FFBtreeIterator.move
  split_ifs with hnil hptr hsib hptr hsib
  · exact absurd (hend.mpr hnil).2 hsib
  · rfl
  · exact absurd (hend.mpr hnil).1 hptr
  · rcases h.node.sibling with ⟨-, h0⟩ | ⟨z, hnext, hz⟩
    · exact absurd h0 hsib
    · obtain ⟨p', n', hplace, hes'⟩ :=
        h.sibling_entries hrep (h.ptr_eq_zero_iff.mp hptr) hnext hz hes
      exact ⟨z, p', n', hplace, hes'⟩
  · exact absurd (hend.mp ⟨hptr, not_not.mp hsib⟩) hnil
  · have hlt : it.index + 1 < n := lt_of_le_of_ne h.lt fun heq => hptr (h.ptr_eq_zero_iff.mpr heq)
    exact ⟨lo, p, n, h.step hlt, h.step_entries hlt hes⟩

end

theorem At.read (hat : At t S it (e :: es)) :
    ∃ p, t.heap it.curPage = some p ∧ (p.key it.index, p.ptr it.index) = e := by
  obtain ⟨lo, p, n, hplace, hes⟩ := hat
  exact ⟨p, hplace.heap, (hes.cons hplace.entry.1).1.symm⟩

/-- **One call of `Next`** before the end has been found: on the last entry it stays there, and
otherwise it goes to the next one; in both cases it finds out whether that is the last one. -/
theorem At.next (hrep : Rep alloc t S .tight) (hat : At t S it (e :: es))
    (hlast : it.last = false) :
    ∃ it', it.next t = some it' ∧ it'.valid = it.valid ∧ it'.last = es.tail.isEmpty ∧
      At t S it' (if es = [] then [e] else es) := by
  obtain ⟨lo, p, n, hplace, hes⟩ := hat
  have hrest := (hes.cons hplace.entry.1).2
  have hmove := hplace.move hrep hrest
  have hvalid : (it.move p).valid = it.valid ∧ (it.move p).last = it.last := by
    unfold FFBtreeIterator.move
    split_ifs <;> exact ⟨rfl, rfl⟩
  -- the record that the test for the end looks at, with what is behind it
  have htest : ∃ lo' p' n' e', Place t S (it.move p) lo' p' n' ∧
      EntriesFrom S.map (p'.key (it.move p).index) (e' :: es.tail) ∧
      (if es = [] then [e] else es) = e' :: es.tail := by
    cases es with
    | nil =>
      have hstay : it.move p = it := hmove
      rw [hstay]
      exact ⟨lo, p, n, e, hplace, hes, rfl⟩
    | cons e' es' =>
      rw [if_neg (List.cons_ne_nil e' es')] at hmove
      obtain ⟨lo', p', n', hplace', hes'⟩ := hmove
      exact ⟨lo', p', n', e', hplace', hes', rfl⟩
  obtain ⟨lo', p', n', e', hplace', hes', heq⟩ := htest
  have hend := hplace'.atEnd_iff hrep (hes'.cons hplace'.entry.1).2
  unfold FFBtreeIterator.next
  rw [hlast, if_neg Bool.false_ne_true, hplace.heap, Option.bind_some, hplace'.heap,
    Option.map_some, heq]
  by_cases hnil : es.tail = []
  · rw [if_pos (hend.mpr hnil)]
    refine ⟨_, rfl, hvalid.1, by rw [hnil]; rfl, lo', p', n', ?_, hes'⟩
    exact ⟨hplace'.addr, hplace'.heap, hplace'.node, hplace'.lt⟩
  · rw [if_neg fun hc => hnil (hend.mp hc)]
    refine ⟨_, rfl, hvalid.1, ?_, lo', p', n', hplace', hes'⟩
    rw [hvalid.2, hlast, Bool.false_eq, List.isEmpty_eq_false_iff]
    exact hnil

end Next

/-! ## The scan -/

section Scan

variable {alloc : ℕ → Addr} {t : Tree} {S : Shape} {it : FFBtreeIterator} {e : ℕ × Addr}
  {es es' : List (ℕ × Addr)}

theorem FFBtreeIterator.scan_mono {r : List (ℕ × Addr) × FFBtreeIterator} :
    ∀ {fuel it} (d : ℕ), scan t fuel it = some r → scan t (fuel + d) it = some r := by
  intro fuel
  induction fuel generalizing r with
  | zero => exact fun _ h => absurd h (by simp [scan])
  | succ fuel ih =>
    intro it d h
    rw [Nat.succ_add]
    unfold scan at h ⊢
    split_ifs at h ⊢ with hvalid
    · obtain ⟨p, hp, h⟩ := Option.bind_eq_some_iff.mp h
      obtain ⟨it', hit', h⟩ := Option.bind_eq_some_iff.mp h
      obtain ⟨r', hr', rfl⟩ := Option.map_eq_some_iff.mp h
      rw [hp, Option.bind_some, hit', Option.bind_some, ih d hr', Option.map_some]
    · exact h

theorem FFBtreeIterator.Yields.unique (h : it.Yields t es) (h' : it.Yields t es') : es = es' := by
  obtain ⟨fuel, it₁, h⟩ := h
  obtain ⟨fuel', it₂, h'⟩ := h'
  have heq := scan_mono fuel' h
  rw [Nat.add_comm, scan_mono fuel h'] at heq
  exact (congrArg Prod.fst (Option.some.inj heq)).symm

theorem FFBtreeIterator.yields_nil (hvalid : it.valid = false) : it.Yields t [] := by
  refine ⟨1, it, ?_⟩
  unfold scan
  rw [hvalid, if_neg Bool.false_ne_true]

theorem FFBtreeIterator.yields_cons {it' : FFBtreeIterator} {p : Page} (hvalid : it.valid = true)
    (hheap : t.heap it.curPage = some p) (hnext : it.next t = some it') (h : it'.Yields t es) :
    it.Yields t ((p.key it.index, p.ptr it.index) :: es) := by
  obtain ⟨fuel, last, hscan⟩ := h
  refine ⟨fuel + 1, last, ?_⟩
  unfold scan
  rw [hvalid, if_pos rfl, hheap, Option.bind_some, hnext, Option.bind_some, hscan, Option.map_some]

theorem FFBtreeIterator.next_of_last (hlast : it.last = true) :
    it.next t = some { it with valid := false } := by
  unfold next
  rw [if_pos hlast]

/-- **An iterator that has come to the end before** reads one record. -/
theorem FFBtreeIterator.yields_of_last {p : Page} (hvalid : it.valid = true)
    (hlast : it.last = true) (hheap : t.heap it.curPage = some p) :
    it.Yields t [(p.key it.index, p.ptr it.index)] :=
  yields_cons hvalid hheap (next_of_last hlast) (yields_nil rfl)

theorem At.yields_of_last (hat : At t S it (e :: es)) (hvalid : it.valid = true)
    (hlast : it.last = true) : it.Yields t [e] := by
  obtain ⟨p, hheap, heq⟩ := hat.read
  exact heq ▸ FFBtreeIterator.yields_of_last hvalid hlast hheap

/-- **A scan that starts on the last entry** reads it twice. -/
theorem At.yields_twice (hrep : Rep alloc t S .tight) (hat : At t S it [e])
    (hvalid : it.valid = true) (hlast : it.last = false) : it.Yields t [e, e] := by
  obtain ⟨it', hnext, hvalid', hlast', hat'⟩ := hat.next hrep hlast
  obtain ⟨p, hheap, heq⟩ := hat.read
  have hrest : it'.Yields t [e] := hat'.yields_of_last (hvalid'.trans hvalid) hlast'
  have htwice := FFBtreeIterator.yields_cons hvalid hheap hnext hrest
  rwa [heq] at htwice

/-- **A scan that starts before the last entry** reads all entries, by induction on the
entries. -/
theorem At.yields (hrep : Rep alloc t S .tight) :
    ∀ {es : List (ℕ × Addr)} {it : FFBtreeIterator} {e : ℕ × Addr}, At t S it (e :: es) →
      it.valid = true → it.last = false → es ≠ [] → it.Yields t (e :: es) := by
  intro es
  induction es with
  | nil => exact fun _ _ _ hne => absurd rfl hne
  | cons e' es ih =>
    intro it e hat hvalid hlast _
    obtain ⟨it', hnext, hvalid', hlast', hat'⟩ := hat.next hrep hlast
    rw [if_neg (List.cons_ne_nil e' es)] at hat'
    obtain ⟨p, hheap, heq⟩ := hat.read
    have hrest : it'.Yields t (e' :: es) := by
      cases es with
      | nil => exact hat'.yields_of_last (hvalid'.trans hvalid) hlast'
      | cons e'' es => exact ih hat' (hvalid'.trans hvalid) hlast' (List.cons_ne_nil e'' es)
    exact heq ▸ FFBtreeIterator.yields_cons hvalid hheap hnext hrest

/-- **What a scan from an entry reads**, and when this is what it should read. -/
theorem At.yields_iff (hrep : Rep alloc t S .tight) (hat : At t S it es) (hne : es ≠ [])
    (hvalid : it.valid = true) : it.Yields t es ↔ (es.length = 1 ↔ it.last = true) := by
  obtain ⟨e, es, rfl⟩ := List.exists_cons_of_ne_nil hne
  cases hlast : it.last with
  | true =>
    have hone := hat.yields_of_last hvalid hlast
    constructor
    · intro hyields
      exact iff_of_true (by rw [hyields.unique hone]; rfl) rfl
    · intro hlen
      obtain rfl : es = [] := List.length_eq_zero_iff.mp (Nat.succ_inj.mp (hlen.mpr rfl))
      exact hone
  | false =>
    cases es with
    | nil =>
      refine iff_of_false (fun hyields => ?_) (by simp)
      exact absurd (hyields.unique (hat.yields_twice hrep hvalid hlast)) (by simp)
    | cons e' es =>
      exact iff_of_true (hat.yields hrep hvalid hlast (List.cons_ne_nil e' es)) (by simp)

end Scan

/-! ## Where the seeks lead -/

section Start

variable {alloc : ℕ → Addr} {t : Tree} {S : Shape} {es : List (ℕ × Addr)} {k : ℕ}

theorem Rep.seek_at (h : Rep alloc t S .tight) (htop : S.Top) (it : FFBtreeIterator)
    (hes : EntriesFrom S.map k es) : ∃ it', it.seek t k = some it' ∧ it'.last = it.last ∧
      if es = [] then it'.valid = false else it'.valid = true ∧ At t S it' es := by
  rcases h.loosen.seek htop it k with ⟨heq, hnone⟩ | ⟨lo, a, p, n, m, heq, hstop⟩
  · refine ⟨_, heq, rfl, ?_⟩
    rw [if_pos (hes.eq_nil_iff.mpr hnone)]
  · obtain ⟨n', hnode⟩ := h.node hstop.addr hstop.heap
    obtain rfl : n' = n := Option.some.inj
      ((Page.count_sound hnode.sound).symm.trans (Page.count_sound hstop.node.sound))
    have hplace : Place t S { it with curPage := a, index := m, valid := true } lo p n' :=
      ⟨hstop.addr, hstop.heap, hnode, hstop.lt⟩
    have hne : es ≠ [] := fun hnil =>
      absurd (hes.eq_nil_iff.mp hnil _ _ hplace.entry.1) (not_lt.mpr hstop.key)
    refine ⟨_, heq, rfl, ?_⟩
    rw [if_neg hne]
    refine ⟨rfl, lo, p, n', hplace, hes.congr fun x y hy => ⟨fun hle => ?_, hstop.key.trans⟩⟩
    -- the page is read from left to right, so a smaller key of it is below the target
    have hbelow : ∀ j < m, p.key j < k := by
      have hrecord := hstop.record
      rw [Page.seekRecord, if_pos (hnode.forward id)] at hrecord
      rcases Page.seekForward_spec hnode.sound k n' 0 (Nat.zero_add _)
        (fun j hj => absurd hj (Nat.not_lt_zero j)) with ⟨hnone, -⟩ | ⟨m', -, hsome, -, hbelow⟩
      · exact absurd (hnone.symm.trans hrecord) (by simp)
      · obtain rfl : m' = m := Option.some.inj (hsome.symm.trans hrecord)
        exact hbelow
    by_contra hlt
    have hcov : Covers (S.fences 0) x lo :=
      hplace.entry.2.of_le (hstop.ahead x y hy hle) (not_le.mp hlt).le
    obtain ⟨i, hi, rfl⟩ := hplace.held hy hcov
    have him : i < m := by
      by_contra hge
      exact hlt (hnode.sound.key_le (not_lt.mp hge) hi)
    exact absurd (hbelow i him) (not_lt.mpr hle)

theorem Rep.firstLeaf (h : Rep alloc t S .tight) : ∀ l fuel a, l < fuel → S.addr l 0 = some a →
    ∃ a', t.firstLeaf fuel a = some a' ∧ S.addr 0 0 = some a' := by
  intro l
  induction l with
  | zero =>
    intro fuel a hfuel ha
    obtain ⟨fuel, rfl⟩ := Nat.exists_eq_succ_of_ne_zero (Nat.ne_zero_of_lt hfuel)
    obtain ⟨p, n, hheap, hp⟩ := h.page 0 0 a ha
    refine ⟨a, ?_, ha⟩
    rw [Tree.firstLeaf, hheap, Option.bind_some, if_pos (hp.leaf rfl)]
  | succ l ih =>
    intro fuel a hfuel ha
    obtain ⟨fuel, rfl⟩ := Nat.exists_eq_succ_of_ne_zero (Nat.ne_zero_of_lt hfuel)
    obtain ⟨p, n, hheap, hp⟩ := h.page (l + 1) 0 a ha
    have hne : p.leftmostPtr ≠ 0 :=
      fun h0 => Nat.succ_ne_zero l ((h.leftmost_eq_zero_iff hp).mp h0)
    rw [Tree.firstLeaf, hheap, Option.bind_some, if_neg hne]
    exact ih fuel p.leftmostPtr (Nat.lt_of_succ_lt_succ hfuel) (hp.inner (Nat.succ_ne_zero l))

theorem Rep.seekToFirst_at (h : Rep alloc t S .tight) (it : FFBtreeIterator)
    (hes : EntriesFrom S.map 0 es) :
    ∃ it', it.seekToFirst t = some it' ∧ it'.last = it.last ∧ it'.valid = true ∧
      if es = [] then ∃ p, t.heap it'.curPage = some p else At t S it' es := by
  have hfuel : S.top < t.height := h.height_le
  obtain ⟨a, heq, ha⟩ := h.firstLeaf S.top t.height t.root hfuel h.root
  obtain ⟨p, n, hheap, hp⟩ := h.page 0 0 a ha
  unfold FFBtreeIterator.seekToFirst
  rw [heq, Option.map_some]
  refine ⟨_, rfl, rfl, rfl, ?_⟩
  split_ifs with hnil
  · exact ⟨p, hheap⟩
  · have hpos : 0 < n := by
      -- an empty page is the only one of the tree
      by_contra h0
      obtain rfl : n = 0 := Nat.eq_zero_of_not_pos h0
      refine hnil (hes.eq_nil_iff.mpr fun x y hy => absurd hy fun hy => ?_)
      have hlast : IsLast (S.fences 0) 0 := fun z hz => by
        by_contra hne
        have hle := hp.full ⟨z, hz, fun h0 => hne (h0 ▸ le_rfl)⟩ rfl
        exact absurd hle (by decide)
      obtain ⟨i, hi, -⟩ := (hp.has x y).mpr
        ⟨hy, hlast.covers ⟨a, ha⟩ (Nat.zero_le x), fun h0 => absurd rfl h0, id⟩
      exact absurd hi (Nat.not_lt_zero i)
    have hplace : Place t S { it with curPage := a, index := 0, valid := true } 0 p n :=
      ⟨ha, hheap, hp, hpos⟩
    refine ⟨0, p, n, hplace, hes.congr fun x y hy => iff_of_true (Nat.zero_le x) ?_⟩
    by_contra hlt
    obtain ⟨i, hi, rfl⟩ := hplace.held hy (hplace.entry.2.of_le (Nat.zero_le x) (not_le.mp hlt).le)
    exact hlt (hp.sound.key_le (Nat.zero_le i) hi)

end Start

/-- **When a scan enumerates the tree.** On every tree that `Insert` builds and for an iterator
in any state, take the entries from a key on. A scan from `Seek` reads these exactly if there
are none; or there is one, and the iterator has come to the end before; or there are more, and
it has not. For a scan from `SeekToFirst` it is the same with all entries, but never if there
are none. -/
theorem scan_enumerates_iff (alloc : ℕ → Addr) (halloc : Function.Injective alloc)
    (hnull : ∀ i, alloc i ≠ 0) (ops : List (ℕ × Addr)) (hops : ∀ op ∈ ops, op.2 ≠ 0)
    (it : FFBtreeIterator) :
    ∃ t, (Tree.new alloc).insertAll alloc ops = some t ∧
      (∀ k, ∃ es it', EntriesFrom (mapOf ops) k es ∧ it.seek t k = some it' ∧
        (it'.Yields t es ↔ es = [] ∨ (es.length = 1 ↔ it.last = true))) ∧
      ∃ es it', EntriesFrom (mapOf ops) 0 es ∧ it.seekToFirst t = some it' ∧
        (it'.Yields t es ↔ es ≠ [] ∧ (es.length = 1 ↔ it.last = true)) := by
  obtain ⟨t, S, heq, h, htop, hmap⟩ :=
    Rep.insertAll halloc hnull ops _ _ (Rep.new hnull).1 (Rep.new hnull).2 hops
  have hmap' : S.map = mapOf ops := hmap
  obtain ⟨chain, -, hsorted, hkeys⟩ := h.leaves
  rw [← hmap']
  refine ⟨t, heq, fun k => ?_, ?_⟩
  · obtain ⟨es, hes⟩ := exists_entriesFrom hsorted hkeys k
    obtain ⟨it', hseek, hlast, hat⟩ := h.seek_at htop it hes
    refine ⟨es, it', hes, hseek, ?_⟩
    by_cases hnil : es = []
    · rw [if_pos hnil] at hat
      exact iff_of_true (hnil ▸ FFBtreeIterator.yields_nil hat) (Or.inl hnil)
    · rw [if_neg hnil] at hat
      rw [hat.2.yields_iff h hnil hat.1, hlast, or_iff_right hnil]
  · obtain ⟨es, hes⟩ := exists_entriesFrom hsorted hkeys 0
    obtain ⟨it', hseek, hlast, hvalid, hat⟩ := h.seekToFirst_at it hes
    refine ⟨es, it', hes, hseek, ?_⟩
    by_cases hnil : es = []
    · rw [if_pos hnil] at hat
      obtain ⟨p, hheap⟩ := hat
      refine iff_of_false (fun hyields => ?_) fun hc => hc.1 hnil
      -- a valid iterator reads at least one record
      obtain ⟨fuel, it'', hscan⟩ := hyields
      cases fuel with
      | zero => exact absurd hscan (by simp [FFBtreeIterator.scan])
      | succ fuel =>
        unfold FFBtreeIterator.scan at hscan
        rw [if_pos hvalid, hheap, Option.bind_some] at hscan
        obtain ⟨_, -, hscan⟩ := Option.bind_eq_some_iff.mp hscan
        obtain ⟨_, -, hres⟩ := Option.map_eq_some_iff.mp hscan
        exact absurd ((congrArg Prod.fst hres).trans hnil) (List.cons_ne_nil _ _)
    · rw [if_neg hnil] at hat
      rw [hat.yields_iff h hnil hvalid, hlast, and_iff_right hnil]

/-- A new iterator on thirty entries. -/
theorem scan_enumerates_iff_thirty :
    ∃ t, (Tree.new oddPages).insertAll oddPages ((List.range 30).map fun i => (i, 2 * i + 2)) =
        some t ∧
      (∀ k, ∃ es it',
        EntriesFrom (mapOf ((List.range 30).map fun i => (i, 2 * i + 2))) k es ∧
        FFBtreeIterator.seek ⟨1, 0, true, false⟩ t k = some it' ∧
        (it'.Yields t es ↔ es = [] ∨ (es.length = 1 ↔ false = true))) ∧
      ∃ es it', EntriesFrom (mapOf ((List.range 30).map fun i => (i, 2 * i + 2))) 0 es ∧
        FFBtreeIterator.seekToFirst ⟨1, 0, true, false⟩ t = some it' ∧
        (it'.Yields t es ↔ es ≠ [] ∧ (es.length = 1 ↔ false = true)) :=
  scan_enumerates_iff oddPages oddPages_injective oddPages_ne_zero
    ((List.range 30).map fun i => (i, 2 * i + 2)) (by decide) ⟨1, 0, true, false⟩

/-- **Three scans that go wrong.** With one entry in the tree, a new iterator reads it twice.
With two entries, a second scan with the same iterator reads the first entry only. And on an
empty tree a new iterator is valid, and reads a record without a value, twice. -/
theorem scan_repeats_and_stops :
    (∃ t it, (Tree.new oddPages).insertAll oddPages [(5, 100)] = some t ∧
      t.getIterator = some it ∧ it.Yields t [(5, 100), (5, 100)]) ∧
    (∃ t it it₁ it₂, (Tree.new oddPages).insertAll oddPages [(1, 100), (2, 102)] = some t ∧
      t.getIterator = some it ∧
      FFBtreeIterator.scan t 3 it = some ([(1, 100), (2, 102)], it₁) ∧
      it₁.seek t 0 = some it₂ ∧ it₂.Yields t [(1, 100)]) ∧
    ∃ it x, (Tree.new oddPages).getIterator = some it ∧
      it.Yields (Tree.new oddPages) [(x, 0), (x, 0)] :=
  ⟨⟨_, _, rfl, rfl, 3, _, rfl⟩, ⟨_, _, _, _, rfl, rfl, rfl, rfl, 2, _, rfl⟩, _, _, rfl, 3, _, rfl⟩

end McfKv.Btree
