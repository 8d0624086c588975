import McfKv.Index.FFBtreeRuns

/-!
# Seeking in the FAST and FAIR tree (`multi-cuckoo-index/ff_btree_iterator.h`, `.cc`)

`FFBtreeIterator::Seek` walks down to a leaf and from there along the siblings, until a page
has a record whose key is not below the target. In which direction it scans a page depends
on `switch_counter`: from left to right it stops at the first such record, from right to left
at the last one. The other scans look for one key, and for them the direction does not
matter; here it does. After a removal from a page, and until the next insertion into it,
`Seek` returns the last record of the page instead of the least one.

`Seek` is modelled with its two loops. The member `cur` is the address of the record
`index` of `cur_page`, and is left out. `none` is as in the other functions on the tree.
`Page.seekRecord_spec` is the scan of one page, `Rep.seekLoop` the walk along the leaves, and
`seek_lower_bound_iff` says when the record is the right one.
-/

namespace McfKv.Btree

open Fence

/-! ## The functions -/

/-- The state of an `FFBtreeIterator`. -/
structure FFBtreeIterator where
  curPage : Addr
  index : ℕ
  valid : Bool
  last : Bool

namespace Page

/-- The scan of `Seek` from left to right; `left` is the number of records from `i` on. -/
def seekForward (p : Page) (k : ℕ) : (left i : ℕ) → Option ℕ
  | 0, _ => none
  | left + 1, i =>
    if p.ptr i = 0 then none
    else if k ≤ p.key i then some i
    else seekForward p k left (i + 1)

/-- The scan of `Seek` from right to left, over the records below `i`. -/
def seekBackward (p : Page) (k : ℕ) : (i : ℕ) → Option ℕ
  | 0 => none
  | i + 1 => if k ≤ p.key i ∧ p.ptr i ≠ 0 then some i else seekBackward p k i

/-- The record of a page that `Seek` stops at. -/
def seekRecord (p : Page) (k n : ℕ) : Option ℕ :=
  if p.isForward then p.seekForward k n 0 else p.seekBackward k n

end Page

namespace Tree

/-- The outer loop of `Seek`; the inner `none` says that there is no record. -/
def seekLoop (t : Tree) (k : ℕ) : (fuel : ℕ) → Addr → Option (Option (Addr × ℕ))
  | 0, _ => none
  | fuel + 1, a =>
    (t.heap a).bind fun p => p.count.bind fun n =>
      match p.seekRecord k n with
      | some i => some (some (a, i))
      | none =>
        if a = p.siblingPtr ∨ p.siblingPtr = 0 then some none
        else seekLoop t k fuel p.siblingPtr

end Tree

namespace FFBtreeIterator

/-- `FFBtreeIterator::Seek`. -/
def seek (it : FFBtreeIterator) (t : Tree) (k : ℕ) : Option FFBtreeIterator :=
  (t.descend k (fun p => p.leftmostPtr = 0) t.height t.root).bind fun leaf =>
    (t.seekLoop k t.next leaf).map fun found =>
      match found with
      | some (a, i) => { it with curPage := a, index := i, valid := true }
      | none => { it with valid := false }

/-- `FFBtreeIterator::key`. -/
def key (it : FFBtreeIterator) (t : Tree) : Option ℕ :=
  (t.heap it.curPage).map fun p => p.key it.index

/-- `FFBtreeIterator::value`. -/
def value (it : FFBtreeIterator) (t : Tree) : Option Addr :=
  (t.heap it.curPage).map fun p => p.ptr it.index

end FFBtreeIterator

namespace Tree

/-- The loop of `SeekToFirst`. -/
def firstLeaf (t : Tree) : (fuel : ℕ) → Addr → Option Addr
  | 0, _ => none
  | fuel + 1, a =>
    (t.heap a).bind fun p => if p.leftmostPtr = 0 then some a else firstLeaf t fuel p.leftmostPtr

/-- `FFBtree::GetIterator`: the constructor calls `SeekToFirst`. -/
def getIterator (t : Tree) : Option FFBtreeIterator :=
  (t.firstLeaf t.height t.root).map fun a => ⟨a, 0, true, false⟩

end Tree

/-! ## One page -/

section SeekRecord

variable {p : Page} {n k : ℕ}

theorem Page.seekForward_spec (h : p.Sound n) (k : ℕ) :
    ∀ left i, i + left = n → (∀ j < i, p.key j < k) →
      (p.seekForward k left i = none ∧ ∀ j < n, p.key j < k) ∨
        ∃ m < n, p.seekForward k left i = some m ∧ k ≤ p.key m ∧ ∀ j < m, p.key j < k := by
  intro left
  induction left with
  | zero =>
    intro i hi hbelow
    exact Or.inl ⟨rfl, fun j hj => hbelow j (by omega)⟩
  | succ left ih =>
    intro i hi hbelow
    rw [Page.seekForward, if_neg (h.ptr_ne i (by omega))]
    by_cases hk : k ≤ p.key i
    · rw [if_pos hk]
      exact Or.inr ⟨i, by omega, rfl, hk, hbelow⟩
    · rw [if_neg hk]
      refine ih (i + 1) (by omega) fun j hj => ?_
      rcases Nat.lt_succ_iff_lt_or_eq.mp hj with hlt | rfl
      · exact hbelow j hlt
      · exact not_le.mp hk

theorem Page.seekBackward_spec (h : p.Sound n) (k : ℕ) :
    (p.seekBackward k n = none ∧ ∀ j < n, p.key j < k) ∨
      ∃ m, n = m + 1 ∧ p.seekBackward k n = some m ∧ k ≤ p.key m := by
  cases n with
  | zero => exact Or.inl ⟨rfl, fun j hj => absurd hj (Nat.not_lt_zero j)⟩
  | succ m =>
    by_cases hk : k ≤ p.key m
    · refine Or.inr ⟨m, rfl, ?_, hk⟩
      rw [Page.seekBackward, if_pos ⟨hk, h.ptr_ne m (Nat.lt_succ_self m)⟩]
    · have hall : ∀ j < m + 1, p.key j < k := fun j hj =>
        (h.key_le (Nat.le_of_lt_succ hj) (Nat.lt_succ_self m)).trans_lt (not_le.mp hk)
      have hnone : ∀ i ≤ m + 1, p.seekBackward k i = none := by
        intro i
        induction i with
        | zero => exact fun _ => rfl
        | succ i ih =>
          intro hi
          rw [Page.seekBackward, if_neg fun hc => absurd hc.1 (not_le.mpr (hall i hi))]
          exact ih (Nat.le_of_succ_le hi)
      exact Or.inl ⟨hnone _ le_rfl, hall⟩

/-- **The scan of a page** finds a record if there is one, in either direction: the first one
from left to right, and the last record of the page from right to left. -/
theorem Page.seekRecord_spec (h : p.Sound n) (k : ℕ) :
    (p.seekRecord k n = none ∧ ∀ j < n, p.key j < k) ∨
      ∃ m < n, p.seekRecord k n = some m ∧ k ≤ p.key m ∧
        ∀ i < n, k ≤ p.key i → (∀ j < n, k ≤ p.key j → p.key i ≤ p.key j) →
          (m = i ↔ p.isForward = true ∨ i + 1 = n) := by
  unfold Page.seekRecord
  by_cases hforward : p.isForward = true
  · rw [if_pos hforward]
    rcases Page.seekForward_spec h k n 0 (Nat.zero_add n)
      (fun j hj => absurd hj (Nat.not_lt_zero j)) with hnone | ⟨m, hm, heq, hkey, hbelow⟩
    · exact Or.inl hnone
    · refine Or.inr ⟨m, hm, heq, hkey, fun i hi hik hleast => iff_of_true ?_ (Or.inl hforward)⟩
      refine le_antisymm ?_ ?_
      · by_contra hlt
        exact absurd (hbelow i (not_le.mp hlt)) (not_lt.mpr hik)
      · by_contra hlt
        exact absurd (hleast m hm hkey) (not_le.mpr (h.sorted m i (not_le.mp hlt) hi))
  · rw [if_neg hforward]
    rcases Page.seekBackward_spec h k with hnone | ⟨m, rfl, heq, hkey⟩
    · exact Or.inl hnone
    · refine Or.inr ⟨m, Nat.lt_succ_self m, heq, hkey, fun i hi _ _ => ?_⟩
      rw [or_iff_right hforward, Nat.succ_inj]
      exact eq_comm

end SeekRecord

/-! ## The walk along the leaves -/

section SeekLoop

variable {alloc : ℕ → Addr} {t : Tree} {S : Shape} {k : ℕ}

/-- The record that the walk stops at: no key from `k` on stands in front of its page. -/
structure SeekStop (t : Tree) (S : Shape) (k lo : ℕ) (a : Addr) (p : Page) (n m : ℕ) : Prop where
  addr : S.addr 0 lo = some a
  heap : t.heap a = some p
  node : S.NodeOk .loose 0 lo p n
  ahead : ∀ x y, S.map x = some y → k ≤ x → lo ≤ x
  lt : m < n
  key : k ≤ p.key m
  record : p.seekRecord k n = some m

/-- **The walk from a page** in front of which there is no key from `k` on. -/
theorem Rep.seekLoop (h : Rep alloc t S .loose) :
    ∀ fuel lo a, S.addr 0 lo = some a → (onward (S.fences 0) lo).ncard ≤ fuel →
      (∀ x y, S.map x = some y → k ≤ x → lo ≤ x) →
      (t.seekLoop k fuel a = some none ∧ ∀ x y, S.map x = some y → x < k) ∨
        ∃ lo' a' p n m, t.seekLoop k fuel a = some (some (a', m)) ∧
          SeekStop t S k lo' a' p n m := by
  intro fuel
  induction fuel with
  | zero =>
    intro lo a ha hfuel
    exact absurd (h.onward_pos ⟨a, ha⟩) (not_lt.mpr hfuel)
  | succ fuel ih =>
    intro lo a ha hfuel hahead
    obtain ⟨p, n, hheap, hp⟩ := h.page _ _ _ ha
    unfold Tree.seekLoop
    rw [hheap, Option.bind_some, Page.count_sound hp.sound, Option.bind_some]
    rcases Page.seekRecord_spec hp.sound k with ⟨hnone, hall⟩ | ⟨m, hm, heq, hkey, -⟩
    · rw [hnone]
      dsimp only
      -- what the page covers is below the target
      have hcovered : ∀ x y, S.map x = some y → Covers (S.fences 0) x lo → x < k := by
        intro x y hy hx
        obtain ⟨i, hi, rfl, -⟩ := LeafOf.held ⟨ha, hx, hheap, hp⟩ hy
        exact hall i hi
      rcases hp.sibling with ⟨hlast, h0⟩ | ⟨z, hnext, hz⟩
      · rw [if_pos (Or.inr h0)]
        refine Or.inl ⟨rfl, fun x y hy => ?_⟩
        by_contra hge
        have hlo := hahead x y hy (not_lt.mp hge)
        exact hge (hcovered x y hy (hlast.covers ⟨a, ha⟩ hlo))
      · have hself : a ≠ p.siblingPtr := fun hc =>
          hnext.2.1.ne (h.ok.inj _ _ _ _ _ ha (hc ▸ hz)).2
        rw [if_neg (not_or.mpr ⟨hself, h.ok.nonnull _ _ _ hz⟩)]
        rw [h.onward_next ⟨a, ha⟩ hnext] at hfuel
        refine ih z _ hz (Nat.le_of_succ_le_succ hfuel) fun x y hy hk => ?_
        by_contra hlt
        have hcov := hnext.covers ⟨a, ha⟩ (hahead x y hy hk) (not_le.mp hlt)
        exact absurd (hcovered x y hy hcov) (not_lt.mpr hk)
    · rw [heq]
      exact Or.inr ⟨lo, a, p, n, m, rfl, ha, hheap, hp, hahead, hm, hkey, heq⟩

/-- **`Seek` on a tree in order.** -/
theorem Rep.seek (h : Rep alloc t S .loose) (htop : S.Top) (it : FFBtreeIterator) (k : ℕ) :
    (it.seek t k = some { it with valid := false } ∧ ∀ x y, S.map x = some y → x < k) ∨
      ∃ lo a p n m, it.seek t k = some { it with curPage := a, index := m, valid := true } ∧
          SeekStop t S k lo a p n m := by
  obtain ⟨lo, a, ha, hcovers, hdescend⟩ := h.descend_leaf htop (Slack.complete_loose 1) k
  unfold FFBtreeIterator.seek
  rw [hdescend, Option.bind_some]
  rcases h.seekLoop t.next lo a ha (h.onward_le 0 lo) (fun x y _ hx => hcovers.2.1.trans hx) with
    ⟨heq, hnone⟩ | ⟨lo', a', p, n, m, heq, hstop⟩
  · rw [heq]
    exact Or.inl ⟨rfl, hnone⟩
  · rw [heq]
    exact Or.inr ⟨lo', a', p, n, m, rfl, hstop⟩

end SeekLoop

/-! ## The lower bound -/

/-- Record `i` of the leaf at `a` has the smallest key of the tree from `k` on. -/
structure Tree.LowerBound (t : Tree) (k : ℕ) (a : Addr) (p : Page) (n i : ℕ) : Prop where
  below : t.Below t.root a
  heap : t.heap a = some p
  leaf : p.leftmostPtr = 0
  count : p.count = some n
  lt : i < n
  key : k ≤ p.key i
  least : ∀ x y, t.Stores x y → k ≤ x → p.key i ≤ x

theorem Steady.stop_page {alloc : ℕ → Addr} {t : Tree} {S : Shape} {k lo n n' m i : ℕ} {a a' : Addr}
    {p p' : Page} (h : Steady alloc t S) (hstop : SeekStop t S k lo a p n m)
    (hbound : t.LowerBound k a' p' n' i) : a' = a ∧ p' = p ∧ n' = n := by
  obtain ⟨l, -, lo', ha', -⟩ := h.rep.addr_of_below h.rep.root hbound.below
  have hp' := h.rep.node_of_count ha' hbound.heap hbound.count
  obtain rfl := (h.rep.leftmost_eq_zero_iff hp').mp hbound.leaf
  have hentry' := (hp'.has _ _).mp ⟨i, hbound.lt, rfl, rfl⟩
  have hentry := (hstop.node.has _ _).mp ⟨m, hstop.lt, rfl, rfl⟩
  -- the bound lies between the fence of the page and a key of the page
  have hlo : lo ≤ p'.key i := hstop.ahead _ _ hentry'.1 hbound.key
  have hle : p'.key i ≤ p.key m :=
    hbound.least _ _ ((h.stores_iff _ _).mpr hentry.1) hstop.key
  obtain rfl := (hentry.2.1.of_le hlo hle).unique hentry'.2.1
  obtain rfl : a' = a := Option.some.inj (ha'.symm.trans hstop.addr)
  obtain rfl : p' = p := Option.some.inj (hbound.heap.symm.trans hstop.heap)
  exact ⟨rfl, rfl, Option.some.inj (hbound.count.symm.trans (Page.count_sound hstop.node.sound))⟩

/-- **When `Seek` finds the lower bound.** On every tree that is reached, for every iterator
and every key: `Valid` tells whether the tree holds a key from there on; and `key` and `value`
are those of the smallest one exactly if its page is scanned from left to right or it is the
last key of its page. -/
theorem seek_lower_bound_iff (alloc : ℕ → Addr) (halloc : Function.Injective alloc)
    (hnull : ∀ i, alloc i ≠ 0) {t : Tree} (ht : Reached alloc t) (it : FFBtreeIterator) (k : ℕ) :
    ∃ it', it.seek t k = some it' ∧ (it'.valid = true ↔ ∃ x y, t.Stores x y ∧ k ≤ x) ∧
      ∀ a p n i, t.LowerBound k a p n i →
        ((it'.key t = some (p.key i) ∧ it'.value t = some (p.ptr i)) ↔
          p.isForward = true ∨ i + 1 = n) := by
  obtain ⟨S, h⟩ := ht.steady halloc hnull
  rcases h.rep.seek h.top it k with ⟨heq, hnone⟩ | ⟨lo, a, p, n, m, heq, hstop⟩
  · have hbelow : ∀ x y, t.Stores x y → x < k := fun x y hxy =>
      hnone x y ((h.stores_iff x y).mp hxy)
    refine ⟨_, heq, iff_of_false (by simp) ?_, fun a p n i hbound => ?_⟩
    · rintro ⟨x, y, hxy, hk⟩
      exact absurd (hbelow x y hxy) (not_lt.mpr hk)
    · have hstored : t.Stores (p.key i) (p.ptr i) :=
        ⟨a, p, n, hbound.below, hbound.heap, hbound.leaf, hbound.count, i, hbound.lt, rfl, rfl⟩
      exact absurd (hbelow _ _ hstored) (not_lt.mpr hbound.key)
  · have hentry := (hstop.node.has _ _).mp ⟨m, hstop.lt, rfl, rfl⟩
    refine ⟨_, heq, iff_of_true rfl ⟨_, _, (h.stores_iff _ _).mpr hentry.1, hstop.key⟩,
      fun a' p' n' i hbound => ?_⟩
    obtain ⟨rfl, rfl, rfl⟩ := h.stop_page hstop hbound
    have hread : ∀ {β : Type} (f : Page → β), (t.heap a').map f = some (f p') := fun f => by
      rw [hstop.heap, Option.map_some]
    have hleast : ∀ j < n', k ≤ p'.key j → p'.key i ≤ p'.key j := fun j hj hk =>
      hbound.least _ _ ((h.stores_iff _ _).mpr ((hstop.node.has _ _).mp ⟨j, hj, rfl, rfl⟩).1) hk
    rcases Page.seekRecord_spec hstop.node.sound k with ⟨hnone, -⟩ | ⟨m', -, hrecord, -, hiff⟩
    · exact absurd (hnone.symm.trans hstop.record) (by simp)
    · obtain rfl : m' = m := Option.some.inj (hrecord.symm.trans hstop.record)
      rw [← hiff i hbound.lt hbound.key hleast]
      constructor
      · rintro ⟨hkey, -⟩
        exact hstop.node.sound.key_inj hstop.lt hbound.lt
          (Option.some.inj ((hread fun p => p.key m').symm.trans hkey))
      · rintro rfl
        exact ⟨hread fun p => p.key m', hread fun p => p.ptr m'⟩

theorem seek_lower_bound_iff_thirty :
    ∃ t, (Tree.new oddPages).insertAll oddPages ((List.range 30).map fun i => (i, 2 * i + 2)) =
        some t ∧
      ∃ it', FFBtreeIterator.seek ⟨1, 0, true, false⟩ t 3 = some it' ∧
        (it'.valid = true ↔ ∃ x y, t.Stores x y ∧ 3 ≤ x) ∧
        ∀ a p n i, t.LowerBound 3 a p n i →
          ((it'.key t = some (p.key i) ∧ it'.value t = some (p.ptr i)) ↔
            p.isForward = true ∨ i + 1 = n) := by
  obtain ⟨t, heq, ht⟩ :=
    exists_reached_oddPages ((List.range 30).map fun i => (i, 2 * i + 2)) (by decide)
  exact ⟨t, heq, seek_lower_bound_iff oddPages oddPages_injective oddPages_ne_zero ht
    ⟨1, 0, true, false⟩ 3⟩

/-- **After a removal** the leaf is scanned from right to left: `Seek(0)` returns the key 3,
although the tree holds the key 1. -/
theorem seek_returns_last_key :
    ∃ t t' it it',
      (Tree.new oddPages).insertAll oddPages [(1, 100), (2, 102), (3, 104)] = some t ∧
      t.remove oddPages 1 2 = some t' ∧ t'.getIterator = some it ∧ it.seek t' 0 = some it' ∧
      it'.valid = true ∧ it'.key t' = some 3 ∧ t'.search 1 = some 100 :=
  ⟨_, _, _, _, rfl, rfl, rfl, rfl, rfl, rfl, rfl⟩

end McfKv.Btree
