import McfKv.Index.FFBtreeInsert
import Mathlib.Data.Set.Card

/-!
# The structure of the tree, read off the heap

`Rep` says that a heap holds the pages of a shape. Here the structure is stated without
a shape, in terms that a reader of the heap can follow: the pages below a page, the
chain of siblings of a level, and the keys of a page.
-/

namespace McfKv.Btree

open Fence

namespace Page

/-- The child pointers of an internal page, from left to right: `hdr.leftmost_ptr`, then
the pointers of the records. -/
def child (p : Page) : ℕ → Addr
  | 0 => p.leftmostPtr
  | i + 1 => p.ptr i

/-- The keys of the live records. -/
def keys (p : Page) : List ℕ := (List.range (p.count.getD 0)).map p.key

theorem Sound.mem_keys {p : Page} {n : ℕ} (h : p.Sound n) {x : ℕ} :
    x ∈ p.keys ↔ ∃ y, p.Has n x y := by
  simp [keys, count_sound h, Has]

theorem Sound.keys_pairwise {p : Page} {n : ℕ} (h : p.Sound n) : p.keys.Pairwise (· < ·) := by
  rw [keys, count_sound h, Option.getD_some, List.pairwise_map]
  refine List.pairwise_lt_range.imp_of_mem fun {i j} _ hj hlt => ?_
  exact h.sorted i j hlt (List.mem_range.mp hj)

end Page

namespace Tree

/-- A page of the subtree under `a`. -/
inductive Below (t : Tree) (a : Addr) : Addr → Prop
  | self : Below t a a
  | child {b : Addr} {p : Page} {n j : ℕ} : Below t a b → t.heap b = some p →
      p.leftmostPtr ≠ 0 → p.count = some n → j ≤ n → Below t a (p.child j)

/-- The pages from `a` on along `hdr.sibling_ptr`. -/
def chain (t : Tree) : ℕ → Addr → Option (List Addr)
  | 0, _ => none
  | fuel + 1, a =>
    (t.heap a).bind fun p =>
      if p.siblingPtr = 0 then some [a] else (chain t fuel p.siblingPtr).map (a :: ·)

/-- Follow `hdr.leftmost_ptr` a number of times. -/
def leftmostBelow (t : Tree) : ℕ → Addr → Option Addr
  | 0, a => some a
  | d + 1, a => (t.heap a).bind fun p => leftmostBelow t d p.leftmostPtr

/-- The chain of a level, from its leftmost page. -/
def levelChain (t : Tree) (l : ℕ) : Option (List Addr) :=
  (t.leftmostBelow (t.height - 1 - l) t.root).bind fun first => t.chain t.next first

/-- The keys of the page at an address. -/
def keysAt (t : Tree) (a : Addr) : List ℕ := ((t.heap a).map Page.keys).getD []

/-- **The structural invariant** of a tree whose leaves hold the keys of a set. -/
structure Structured (t : Tree) (keys : Set ℕ) : Prop where
  height : ∃ r, t.heap t.root = some r ∧ r.level + 1 = t.height
  records : ∀ a, t.Below t.root a → ∃ p n, t.heap a = some p ∧ p.count = some n ∧ p.Live n
  children : ∀ a p n j, t.Below t.root a → t.heap a = some p → p.leftmostPtr ≠ 0 →
    p.count = some n → j ≤ n → ∃ c, t.heap (p.child j) = some c ∧ c.level + 1 = p.level
  separators : ∀ a p n j, t.Below t.root a → t.heap a = some p → p.leftmostPtr ≠ 0 →
    p.count = some n → j ≤ n → ∀ b, t.Below (p.child j) b → ∀ x ∈ t.keysAt b,
      (∀ i, j = i + 1 → p.key i ≤ x) ∧ (j < n → x < p.key j)
  siblings : ∀ l < t.height, ∃ chain, t.levelChain l = some chain ∧ chain.Nodup ∧
    ∀ a, a ∈ chain ↔ t.Below t.root a ∧ ∃ p, t.heap a = some p ∧ p.level = l
  leaves : ∃ chain, t.levelChain 0 = some chain ∧
    (chain.flatMap t.keysAt).Pairwise (· < ·) ∧ ∀ x, x ∈ chain.flatMap t.keysAt ↔ x ∈ keys

end Tree

section Structure

variable {alloc : ℕ → Addr} {t : Tree} {S : Shape} {σ : Slack} {l lo x : ℕ} {a b : Addr} {p : Page}
  {n : ℕ}

/-! ## The pages below a page -/

theorem Shape.Ok.fences_subset (h : S.Ok σ) {l l' : ℕ} (hle : l' ≤ l) : S.fences l ⊆ S.fences l' :=
  antitone_nat_of_succ_le h.nested hle

/-- The fence of a child of the page at `lo`. -/
def Page.childFence (p : Page) (lo : ℕ) : ℕ → ℕ
  | 0 => lo
  | i + 1 => p.key i

theorem Shape.NodeOk.addr_child (hp : S.NodeOk σ (l + 1) lo p n) {j : ℕ} (hj : j ≤ n) :
    S.addr l (p.childFence lo j) = some (p.child j) := by
  cases j with
  | zero => exact hp.inner (Nat.succ_ne_zero l)
  | succ i => exact ((hp.has _ _).mp ⟨i, hj, rfl, rfl⟩).1

theorem Shape.NodeOk.covers_childFence (hp : S.NodeOk σ (l + 1) lo p n)
    (hlo : lo ∈ S.fences (l + 1)) {j : ℕ} (hj : j ≤ n) :
    Covers (S.fences (l + 1)) (p.childFence lo j) lo := by
  cases j with
  | zero => exact ⟨hlo, le_rfl, fun y _ hy => hy⟩
  | succ i => exact ((hp.has _ _).mp ⟨i, hj, rfl, rfl⟩).2.1

theorem Shape.NodeOk.childFence_lt (hp : S.NodeOk σ (l + 1) lo p n) {j : ℕ} (hj : j < n) :
    p.childFence lo j < p.key j := by
  cases j with
  | zero =>
    have hentry := (hp.has _ _).mp ⟨0, hj, rfl, rfl⟩
    exact lt_of_le_of_ne hentry.2.1.2.1 (hentry.2.2.1 (Nat.succ_ne_zero l)).symm
  | succ i => exact hp.sound.sorted i (i + 1) (Nat.lt_succ_self i) hj

section

variable (h : Rep alloc t S σ)

include h

/-- **Downwards**: a page below the page at `lo` has its fence in the interval of `lo`. -/
theorem Rep.addr_of_below (ha : S.addr l lo = some a) (hb : t.Below a b) :
    ∃ l' ≤ l, ∃ x, S.addr l' x = some b ∧ Covers (S.fences l) x lo := by
  induction hb with
  | self => exact ⟨l, le_rfl, lo, ha, ⟨a, ha⟩, le_rfl, fun y _ hy => hy⟩
  | @child b p n j _ hheap hne hcount hj ih =>
    obtain ⟨l', hl', x, hx, hcov⟩ := ih
    have hp := h.node_of_count hx hheap hcount
    obtain ⟨l'', rfl⟩ := Nat.exists_eq_succ_of_ne_zero
      fun h0 => hne ((h.leftmost_eq_zero_iff hp).mpr h0)
    refine ⟨l'', (Nat.le_succ _).trans hl', _, hp.addr_child hj, ?_⟩
    exact hcov.trans (h.ok.fences_subset hl') (hp.covers_childFence ⟨b, hx⟩ hj)

theorem Rep.fences_ncard_le (l : ℕ) : (S.fences l).Finite ∧ (S.fences l).ncard ≤ t.next := by
  choose! addr haddr using fun x (hx : x ∈ S.fences l) => hx
  choose! index hlt hindex using fun x (hx : x ∈ S.fences l) => h.used l x _ (haddr x hx)
  have hinj : Set.InjOn index (S.fences l) := by
    intro x hx y hy heq
    have haddrs : addr x = addr y := by rw [← hindex x hx, heq, hindex y hy]
    exact (h.ok.inj l x l y _ (haddr x hx) (haddrs ▸ haddr y hy)).2
  have hmaps : Set.MapsTo index (S.fences l) (Finset.range t.next : Set ℕ) :=
    fun x hx => Finset.mem_coe.mpr (Finset.mem_range.mpr (hlt x hx))
  refine ⟨Set.Finite.of_injOn hmaps hinj (Finset.finite_toSet _), ?_⟩
  calc (S.fences l).ncard ≤ (Finset.range t.next : Set ℕ).ncard :=
        Set.ncard_le_ncard_of_injOn index hmaps hinj (Finset.finite_toSet _)
    _ = t.next := by rw [Set.ncard_coe_finset, Finset.card_range]

theorem Rep.exists_covers (hl : l ≤ S.top) (k : ℕ) : ∃ lo, Covers (S.fences l) k lo :=
  Fence.exists_covers (h.fences_ncard_le l).1 (h.ok.zero l hl) (Nat.zero_le k)

/-- **Upwards**: every page of the shape is below the root, by induction on its distance
from the top level. -/
theorem Rep.below_of_addr (hcomplete : σ.Complete 0) (htop : S.Top) :
    ∀ d l x a, l + d = S.top → S.addr l x = some a → t.Below t.root a := by
  intro d
  induction d with
  | zero =>
    rintro l x a rfl ha
    obtain rfl := htop x ⟨a, ha⟩
    obtain rfl : t.root = a := Option.some.inj (h.root.symm.trans ha)
    exact .self
  | succ d ih =>
    intro l x a hl ha
    obtain ⟨lo, hcov⟩ := h.exists_covers (show l + 1 ≤ S.top by omega) x
    obtain ⟨b, hb⟩ := hcov.1
    obtain ⟨p, n, hheap, hp⟩ := h.page (l + 1) lo b hb
    have hne : p.leftmostPtr ≠ 0 :=
      fun h0 => Nat.succ_ne_zero l ((h.leftmost_eq_zero_iff hp).mp h0)
    have hparent := ih (l + 1) lo b (by omega) hb
    have hchild : ∀ j ≤ n, t.Below t.root (p.child j) :=
      fun j hj => .child hparent hheap hne (Page.count_sound hp.sound) hj
    by_cases hx : x = lo
    · have heq := hp.inner (Nat.succ_ne_zero l)
      obtain rfl : a = p.leftmostPtr := Option.some.inj (ha.symm.trans (hx ▸ heq))
      exact hchild 0 (Nat.zero_le n)
    · obtain ⟨i, hi, -, rfl⟩ :=
        (hp.has x a).mpr ⟨ha, hcov, fun _ => hx, (hcomplete _ (Nat.zero_le _) x).1⟩
      exact hchild (i + 1) hi

theorem Rep.below_root_iff (hcomplete : σ.Complete 0) (htop : S.Top) :
    (t.Below t.root a ∧ ∃ p, t.heap a = some p ∧ p.level = l) ↔ ∃ x, S.addr l x = some a := by
  constructor
  · rintro ⟨hbelow, p, hheap, rfl⟩
    obtain ⟨l', -, x, hx, -⟩ := h.addr_of_below h.root hbelow
    obtain ⟨n, hp⟩ := h.node hx hheap
    exact ⟨x, hp.level ▸ hx⟩
  · rintro ⟨x, hx⟩
    obtain ⟨p, n, hheap, hp⟩ := h.page l x a hx
    have hl := h.ok.above l x ⟨a, hx⟩
    exact ⟨h.below_of_addr hcomplete htop (S.top - l) l x a (by omega) hx, p, hheap, hp.level⟩

/-! ## The chain of a level -/

theorem Rep.onward_finite (l lo : ℕ) : (onward (S.fences l) lo).Finite :=
  (h.fences_ncard_le l).1.subset (Set.sep_subset _ _)

theorem Rep.onward_le (l lo : ℕ) : (onward (S.fences l) lo).ncard ≤ t.next :=
  (Set.ncard_le_ncard (Set.sep_subset _ _) (h.fences_ncard_le l).1).trans (h.fences_ncard_le l).2

theorem Rep.onward_pos (hlo : lo ∈ S.fences l) : 0 < (onward (S.fences l) lo).ncard :=
  (Set.ncard_pos (h.onward_finite l lo)).mpr ⟨lo, hlo, le_rfl⟩

theorem Rep.onward_next (hlo : lo ∈ S.fences l) (hnext : IsNext (S.fences l) lo x) :
    (onward (S.fences l) lo).ncard = (onward (S.fences l) x).ncard + 1 := by
  rw [onward_of_isNext hlo hnext,
    Set.ncard_insert_of_notMem (notMem_onward hnext.2.1) (h.onward_finite l x)]

/-- **The chain from a page** goes through the pages of the level from its fence on, in
order, and ends. -/
theorem Rep.chain : ∀ fuel lo a, S.addr l lo = some a → (onward (S.fences l) lo).ncard ≤ fuel →
    ∃ los : List ℕ, t.chain fuel a = some (los.filterMap (S.addr l)) ∧
      los.Pairwise (· < ·) ∧ ∀ x, x ∈ los ↔ x ∈ onward (S.fences l) lo := by
  intro fuel
  induction fuel with
  | zero =>
    intro lo a ha hfuel
    exact absurd (h.onward_pos ⟨a, ha⟩) (not_lt.mpr hfuel)
  | succ fuel ih =>
    intro lo a ha hfuel
    have hlo : lo ∈ S.fences l := ⟨a, ha⟩
    obtain ⟨p, n, hheap, hp⟩ := h.page l lo a ha
    rw [Tree.chain, hheap, Option.bind_some]
    rcases hp.sibling with ⟨hlast, h0⟩ | ⟨y, hnext, hy⟩
    · refine ⟨[lo], ?_, List.pairwise_singleton _ _, fun x => ?_⟩
      · rw [if_pos h0, List.filterMap_cons_some ha, List.filterMap_nil]
      · rw [onward_of_isLast hlo hlast, List.mem_singleton, Set.mem_singleton_iff]
    · rw [h.onward_next hlo hnext] at hfuel
      obtain ⟨los, hchain, hsorted, hmem⟩ := ih y _ hy (Nat.le_of_succ_le_succ hfuel)
      refine ⟨lo :: los, ?_, ?_, fun x => ?_⟩
      · rw [if_neg (h.ok.nonnull l y _ hy), hchain, List.filterMap_cons_some ha]
        rfl
      · refine List.pairwise_cons.mpr ⟨fun x hx => ?_, hsorted⟩
        exact lt_of_lt_of_le hnext.2.1 ((hmem x).mp hx).2
      · rw [onward_of_isNext hlo hnext, List.mem_cons, hmem, Set.mem_insert_iff]

theorem Rep.leftmostBelow : ∀ d l a, S.addr (l + d) 0 = some a →
    ∃ a', t.leftmostBelow d a = some a' ∧ S.addr l 0 = some a' := by
  intro d
  induction d with
  | zero => exact fun l a ha => ⟨a, rfl, ha⟩
  | succ d ih =>
    intro l a ha
    obtain ⟨p, n, hheap, hp⟩ := h.page _ 0 a ha
    rw [Tree.leftmostBelow, hheap, Option.bind_some]
    exact ih l p.leftmostPtr (hp.inner (Nat.succ_ne_zero (l + d)))

end

/-- **The chain of a level** goes through all its pages, in the order of their fences. -/
theorem Rep.levelChain (h : Rep alloc t S .tight) (hl : l ≤ S.top) :
    ∃ los : List ℕ, t.levelChain l = some (los.filterMap (S.addr l)) ∧
      los.Pairwise (· < ·) ∧ ∀ x, x ∈ los ↔ x ∈ S.fences l := by
  have hroot : S.addr (l + (S.top - l)) 0 = some t.root := by
    rw [Nat.add_sub_cancel' hl]
    exact h.root
  obtain ⟨first, heq, hfirst⟩ := h.leftmostBelow (S.top - l) l t.root hroot
  have hall : onward (S.fences l) 0 = S.fences l :=
    Set.sep_eq_self_iff_mem_true.mpr fun x _ => Nat.zero_le x
  obtain ⟨los, hchain, hsorted, hmem⟩ :=
    h.chain t.next 0 first hfirst (h.onward_le l 0)
  refine ⟨los, ?_, hsorted, fun x => by rw [hmem, hall]⟩
  rw [Tree.levelChain, h.height id, Nat.add_sub_cancel, heq]
  exact hchain

/-! ## The keys of the leaves -/

theorem Rep.keysAt (h : Rep alloc t S σ) (ha : S.addr l lo = some a) :
    (t.keysAt a).Pairwise (· < ·) ∧ ∀ x, x ∈ t.keysAt a ↔ ∃ y, S.Entry σ l lo x y := by
  obtain ⟨p, n, hheap, hp⟩ := h.page l lo a ha
  rw [Tree.keysAt, hheap, Option.map_some, Option.getD_some]
  refine ⟨hp.sound.keys_pairwise, fun x => ?_⟩
  rw [hp.sound.mem_keys]
  exact exists_congr fun y => hp.has x y

theorem Rep.leaves (h : Rep alloc t S .tight) :
    ∃ chain, t.levelChain 0 = some chain ∧ (chain.flatMap t.keysAt).Pairwise (· < ·) ∧
      ∀ x, x ∈ chain.flatMap t.keysAt ↔ x ∈ {x | S.map x ≠ none} := by
  obtain ⟨los, hchain, hsorted, hmem⟩ := h.levelChain S.top.zero_le
  refine ⟨_, hchain, ?_, fun x => ?_⟩
  · rw [List.pairwise_flatMap]
    refine ⟨fun a ha => ?_, List.pairwise_filterMap.mpr (hsorted.imp ?_)⟩
    · obtain ⟨lo, -, hlo⟩ := List.mem_filterMap.mp ha
      exact (h.keysAt hlo).1
    · -- the keys of a page end in front of the fence of a later one
      intro lo lo' hlt a ha b hb x hx y hy
      obtain ⟨_, hentry⟩ := ((h.keysAt ha).2 x).mp hx
      obtain ⟨_, hentry'⟩ := ((h.keysAt hb).2 y).mp hy
      exact lt_of_lt_of_le (hentry.2.1.lt_of_lt ⟨b, hb⟩ hlt) hentry'.2.1.2.1
  · rw [List.mem_flatMap]
    constructor
    · rintro ⟨a, ha, hx⟩
      obtain ⟨lo, -, hlo⟩ := List.mem_filterMap.mp ha
      obtain ⟨y, hentry⟩ := ((h.keysAt hlo).2 x).mp hx
      exact Option.ne_none_iff_exists'.mpr ⟨y, hentry.1⟩
    · intro hx
      obtain ⟨y, hy⟩ := Option.ne_none_iff_exists'.mp hx
      obtain ⟨lo, hcov⟩ := h.exists_covers S.top.zero_le x
      obtain ⟨a, ha⟩ := hcov.1
      refine ⟨a, List.mem_filterMap.mpr ⟨lo, (hmem lo).mpr ⟨a, ha⟩, ha⟩, ?_⟩
      exact ((h.keysAt ha).2 x).mpr ⟨y, hy, hcov, fun h0 => absurd rfl h0, id⟩

/-! ## The invariant -/

theorem Rep.inner_of_below (h : Rep alloc t S σ) (ha : t.Below t.root a)
    (hheap : t.heap a = some p) (hcount : p.count = some n) (hne : p.leftmostPtr ≠ 0) :
    ∃ l lo, S.addr (l + 1) lo = some a ∧ S.NodeOk σ (l + 1) lo p n := by
  obtain ⟨l, -, lo, hlo, -⟩ := h.addr_of_below h.root ha
  have hp := h.node_of_count hlo hheap hcount
  obtain ⟨l, rfl⟩ := Nat.exists_eq_succ_of_ne_zero
    fun h0 => hne ((h.leftmost_eq_zero_iff hp).mpr h0)
  exact ⟨l, lo, hlo, hp⟩

/-- **A heap that holds the pages of a shape is structured.** -/
theorem Rep.structured (h : Rep alloc t S .tight) (htop : S.Top) :
    t.Structured {x | S.map x ≠ none} where
  height := by
    obtain ⟨r, n, hheap, hr⟩ := h.page _ _ _ h.root
    exact ⟨r, hheap, by rw [hr.level, h.height id]⟩
  records a ha := by
    obtain ⟨l, -, lo, hlo, -⟩ := h.addr_of_below h.root ha
    obtain ⟨p, n, hheap, hp⟩ := h.page l lo a hlo
    exact ⟨p, n, hheap, Page.count_sound hp.sound, hp.live⟩
  children a p n j ha hheap hne hcount hj := by
    obtain ⟨l, lo, -, hp⟩ := h.inner_of_below ha hheap hcount hne
    obtain ⟨c, m, hc, hcp⟩ := h.page l _ _ (hp.addr_child hj)
    exact ⟨c, hc, by rw [hcp.level, hp.level]⟩
  separators a p n j ha hheap hne hcount hj b hb x hx := by
    obtain ⟨l, lo, hlo, hp⟩ := h.inner_of_below ha hheap hcount hne
    obtain ⟨l', hl', z, hz, hcov⟩ := h.addr_of_below (hp.addr_child hj) hb
    obtain ⟨y, hentry⟩ := ((h.keysAt hz).2 x).mp hx
    -- the key is in the interval of the child on the child's own level
    have hcovx : Covers (S.fences l) x (p.childFence lo j) :=
      hcov.trans (h.ok.fences_subset hl') hentry.2.1
    refine ⟨fun i hi => ?_, fun hlt => ?_⟩
    · subst hi
      exact hcovx.2.1
    · exact hcovx.lt_of_lt ⟨_, hp.addr_child (j := j + 1) hlt⟩ (hp.childFence_lt hlt)
  siblings l hl := by
    have hl' : l ≤ S.top := by
      have := h.height id
      omega
    obtain ⟨los, hchain, hsorted, hmem⟩ := h.levelChain hl'
    refine ⟨_, hchain, ?_, fun a => ?_⟩
    · refine List.Nodup.filterMap ?_ (hsorted.imp fun hlt => hlt.ne)
      exact fun x x' b hx hx' => (h.ok.inj l x l x' b hx hx').2
    · rw [h.below_root_iff (Slack.complete_tight 0) htop, List.mem_filterMap]
      constructor
      · rintro ⟨x, -, hx⟩
        exact ⟨x, hx⟩
      · rintro ⟨x, hx⟩
        exact ⟨x, (hmem x).mpr ⟨a, hx⟩, hx⟩
  leaves := h.leaves

end Structure

theorem mapAfter_ne_none (ops : List (ℕ × Addr)) (x : ℕ) :
    ∀ m, mapAfter m ops x ≠ none ↔ m x ≠ none ∨ x ∈ ops.map Prod.fst := by
  induction ops with
  | nil => simp [mapAfter]
  | cons op ops ih =>
    intro m
    change mapAfter (Function.update m op.1 (some op.2)) ops x ≠ none ↔ _
    rw [ih, List.map_cons, List.mem_cons, ← or_assoc]
    refine or_congr ?_ Iff.rfl
    by_cases hx : x = op.1
    · simp [hx]
    · simp [hx]

/-- **Every tree built by insertions is structured**, and its leaves hold exactly the keys
that were inserted. -/
theorem structured_insertAll (alloc : ℕ → Addr) (halloc : Function.Injective alloc)
    (hnull : ∀ i, alloc i ≠ 0) (ops : List (ℕ × Addr)) (hops : ∀ op ∈ ops, op.2 ≠ 0) :
    ∃ t, (Tree.new alloc).insertAll alloc ops = some t ∧
      t.Structured {x | x ∈ ops.map Prod.fst} := by
  obtain ⟨t, S, heq, h, htop, hmap⟩ :=
    Rep.insertAll halloc hnull ops _ _ (Rep.new hnull).1 (Rep.new hnull).2 hops
  refine ⟨t, heq, ?_⟩
  have hkeys : {x | S.map x ≠ none} = {x | x ∈ ops.map Prod.fst} := by
    ext x
    simp only [Set.mem_ofPred_eq, hmap, mapAfter_ne_none]
    exact or_iff_right fun h0 => h0 rfl
  rw [← hkeys]
  exact h.structured htop

/-- Thirty insertions split a leaf and make a new root. -/
theorem structured_insertAll_thirty :
    ∃ t, (Tree.new (· + 1)).insertAll (· + 1) ((List.range 30).map fun i => (i, i + 100)) = some t ∧
      t.height = 2 ∧ t.levelChain 0 = some [1, 2] ∧
      t.Structured {x | x ∈ ((List.range 30).map fun i => (i, i + 100)).map Prod.fst} := by
  obtain ⟨t, heq, hstructured⟩ :=
    structured_insertAll (· + 1) (fun _ _ => Nat.succ.inj) Nat.succ_ne_zero
      ((List.range 30).map fun i => (i, i + 100)) (by decide)
  have hrun : ((Tree.new (· + 1)).insertAll (· + 1)
      ((List.range 30).map fun i => (i, i + 100))).map (fun t => (t.height, t.levelChain 0)) =
        some (2, some [1, 2]) := by
    decide +kernel
  rw [heq, Option.map_some, Option.some.injEq, Prod.mk.injEq] at hrun
  exact ⟨t, heq, hrun.1, hrun.2, hstructured⟩

end McfKv.Btree
