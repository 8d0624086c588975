import McfKv.Index.FFBtreeInsert

/-!
# Searching a tree in the middle of a split

While a page is being split, the level above does not know the new page yet, and for an
internal page the pointer between the two halves is in neither of them for a while. A
search then takes a wrong child, and is right all the same, because it moves along the
siblings of every level. What it needs of a page is little: `linear_search` may answer
with any page whose fence is not above the key, on the level below or further right on
the same level.

`Navigable` says that every page of a shape gives answers that bring a search forward, and
`Navigable.searches` that `Search` then reads the map. `Shape.Guided`, the condition on the records
of a page that yields such answers, does not say which interval the page covers, so that it holds of
the full page, of its left half and of the new page alike.
-/

namespace McfKv.Btree

open Fence

/-! ## The result of a search -/

namespace Tree

variable {t : Tree} {k : ℕ}

/-- `FFBtree::Search` returns `r`. The loops take as many rounds as they need: on a tree
whose parents are behind, a search also moves to the right on the internal levels, so
that the height of the tree does not bound the first loop. -/
def Searches (t : Tree) (k : ℕ) (r : Addr) : Prop :=
  ∃ fuel leaf, t.descend k (fun p => p.leftmostPtr = 0) fuel t.root = some leaf ∧
    ∃ fuel', t.leafLoop k fuel' leaf = some r

theorem descend_mono {stop : Page → Bool} {leaf : Addr} :
    ∀ fuel fuel' a, fuel ≤ fuel' → t.descend k stop fuel a = some leaf →
      t.descend k stop fuel' a = some leaf := by
  intro fuel
  induction fuel with
  | zero =>
    intro fuel' a _ h
    exact absurd h (by simp [descend])
  | succ fuel ih =>
    intro fuel' a hle h
    obtain ⟨fuel', rfl⟩ := Nat.exists_eq_succ_of_ne_zero (Nat.ne_zero_of_lt hle)
    rw [descend, Option.bind_eq_some_iff] at h ⊢
    obtain ⟨p, hheap, h⟩ := h
    refine ⟨p, hheap, ?_⟩
    split_ifs at h ⊢ with hstop
    · exact h
    · rw [Option.bind_eq_some_iff] at h ⊢
      obtain ⟨child, hchild, h⟩ := h
      exact ⟨child, hchild, ih fuel' child (Nat.le_of_succ_le_succ hle) h⟩

theorem leafLoop_mono {r : Addr} : ∀ fuel fuel' a, fuel ≤ fuel' → t.leafLoop k fuel a = some r →
    t.leafLoop k fuel' a = some r := by
  intro fuel
  induction fuel with
  | zero =>
    intro fuel' a _ h
    exact absurd h (by simp [leafLoop])
  | succ fuel ih =>
    intro fuel' a hle h
    obtain ⟨fuel', rfl⟩ := Nat.exists_eq_succ_of_ne_zero (Nat.ne_zero_of_lt hle)
    rw [leafLoop, Option.bind_eq_some_iff] at h ⊢
    obtain ⟨p, hheap, h⟩ := h
    rw [Option.bind_eq_some_iff] at h
    obtain ⟨child, hchild, h⟩ := h
    refine ⟨p, hheap, ?_⟩
    rw [Option.bind_eq_some_iff]
    refine ⟨child, hchild, ?_⟩
    split_ifs at h ⊢ with hsibling hnull
    · exact h
    · exact ih fuel' child (Nat.le_of_succ_le_succ hle) h
    · exact h

theorem Searches.unique {r r' : Addr} (h : t.Searches k r) (h' : t.Searches k r') : r = r' := by
  obtain ⟨fuel, leaf, hdescend, rounds, hloop⟩ := h
  obtain ⟨fuel', leaf', hdescend', rounds', hloop'⟩ := h'
  have hleaf : leaf = leaf' := Option.some.inj
    ((descend_mono _ (max fuel fuel') _ (le_max_left _ _) hdescend).symm.trans
      (descend_mono _ (max fuel fuel') _ (le_max_right _ _) hdescend'))
  subst hleaf
  exact Option.some.inj ((leafLoop_mono _ (max rounds rounds') _ (le_max_left _ _) hloop).symm.trans
      (leafLoop_mono _ (max rounds rounds') _ (le_max_right _ _) hloop'))

/-- The search with the height as a bound is such a search. -/
theorem searches_of_search {r : Addr} (h : t.search k = some r) : t.Searches k r := by
  obtain ⟨leaf, hdescend, hloop⟩ := Option.bind_eq_some_iff.mp h
  exact ⟨_, leaf, hdescend, _, hloop⟩

end Tree

/-! ## Moving right and moving down -/

namespace Shape

/-- **What brings a search for `k` forward** on the page `p` at fence `lo` of a level: a
page further right whose fence is not above the key, a page of the level below whose fence
is not above the key, or the value of the key. -/
inductive Step (S : Shape) (p : Page) (k : ℕ) : ℕ → ℕ → Addr → Prop
  | right {l lo y : ℕ} : lo < y → y ≤ k → S.addr l y = some p.siblingPtr →
      Step S p k l lo p.siblingPtr
  | down {l lo y : ℕ} {r : Addr} : y ≤ k → S.addr l y = some r → Step S p k (l + 1) lo r
  | found {lo : ℕ} : ((S.map k).getD 0 = p.siblingPtr → p.siblingPtr = 0) →
      Step S p k 0 lo ((S.map k).getD 0)

/-- The page answers every key from its fence on. -/
def Directs (S : Shape) (firstKey : Addr → Option ℕ) (l lo : ℕ) (p : Page) : Prop :=
  (p.leftmostPtr = 0 ↔ l = 0) ∧
    ∀ k, lo ≤ k → ∃ r, p.linearSearch firstKey k = some r ∧ S.Step p k l lo r

end Shape

/-- Every page of the shape is in the heap and brings a search forward. -/
structure Navigable (t : Tree) (S : Shape) : Prop where
  root : S.addr S.top 0 = some t.root
  nonnull : ∀ l x a, S.addr l x = some a → a ≠ 0
  page : ∀ l lo a, S.addr l lo = some a → ∃ p, t.heap a = some p ∧ S.Directs t.firstKey l lo p

namespace Navigable

variable {t : Tree} {S : Shape}

/-- **The descent** reaches a leaf whose fence is not above the key. -/
theorem descend (h : Navigable t S) (k : ℕ) : ∀ l lo a, S.addr l lo = some a → lo ≤ k →
    ∃ fuel x leaf, S.addr 0 x = some leaf ∧ x ≤ k ∧
      t.descend k (fun p => p.leftmostPtr = 0) fuel a = some leaf := by
  intro l
  induction l with
  | zero =>
    intro lo a ha hlo
    obtain ⟨p, hheap, hleaf, -⟩ := h.page 0 lo a ha
    refine ⟨1, lo, a, ha, hlo, ?_⟩
    rw [Tree.descend, hheap, Option.bind_some, if_pos (decide_eq_true (hleaf.mpr rfl))]
  | succ l ih =>
    -- on one level the fence goes up, and stays at or below the key
    intro lo
    induction hd : k - lo using Nat.strong_induction_on generalizing lo with
    | _ d ihd =>
      intro a ha hlo
      obtain ⟨p, hheap, hleaf, hdirects⟩ := h.page (l + 1) lo a ha
      obtain ⟨r, hsearch, hstep⟩ := hdirects k hlo
      have hround : ∀ fuel, t.descend k (fun p => p.leftmostPtr = 0) (fuel + 1) a =
          t.descend k (fun p => p.leftmostPtr = 0) fuel r := by
        intro fuel
        rw [Tree.descend, hheap, Option.bind_some, if_neg (by simp [hleaf]), hsearch,
          Option.bind_some]
      cases hstep with
      | @right _ _ y hlt hle hy =>
        obtain ⟨fuel, x, leaf, hx, hxk, heq⟩ := ihd (k - y) (by omega) y rfl _ hy hle
        exact ⟨fuel + 1, x, leaf, hx, hxk, (hround fuel).trans heq⟩
      | @down _ _ y _ hle hy =>
        obtain ⟨fuel, x, leaf, hx, hxk, heq⟩ := ih y r hy hle
        exact ⟨fuel + 1, x, leaf, hx, hxk, (hround fuel).trans heq⟩

/-- **The walk along the leaves** ends with the value of the key. -/
theorem leafLoop (h : Navigable t S) (k : ℕ) : ∀ lo a, S.addr 0 lo = some a → lo ≤ k →
    ∃ fuel, t.leafLoop k fuel a = some ((S.map k).getD 0) := by
  intro lo
  induction hd : k - lo using Nat.strong_induction_on generalizing lo with
  | _ d ihd =>
    intro a ha hlo
    obtain ⟨p, hheap, -, hdirects⟩ := h.page 0 lo a ha
    obtain ⟨r, hsearch, hstep⟩ := hdirects k hlo
    have hround : ∀ fuel, t.leafLoop k (fuel + 1) a =
        if r = p.siblingPtr then if r = 0 then some 0 else t.leafLoop k fuel r else some r := by
      intro fuel
      rw [Tree.leafLoop, hheap, Option.bind_some, hsearch, Option.bind_some]
    cases hstep with
    | @right _ _ y hlt hle hy =>
      obtain ⟨fuel, heq⟩ := ihd (k - y) (by omega) y rfl _ hy hle
      refine ⟨fuel + 1, ?_⟩
      rw [hround, if_pos rfl, if_neg (h.nonnull 0 y _ hy), heq]
    | found hvalue =>
      refine ⟨1, ?_⟩
      rw [hround]
      by_cases hsibling : (S.map k).getD 0 = p.siblingPtr
      · have hnull : (S.map k).getD 0 = 0 := hsibling.trans (hvalue hsibling)
        rw [if_pos hsibling, if_pos hnull, hnull]
      · rw [if_neg hsibling]

/-- **`Search` reads the map** of a shape that can be navigated. -/
theorem searches (h : Navigable t S) (k : ℕ) : t.Searches k ((S.map k).getD 0) := by
  obtain ⟨fuel, x, leaf, hx, hxk, hdescend⟩ := h.descend k S.top 0 t.root h.root (Nat.zero_le k)
  exact ⟨fuel, leaf, hdescend, h.leafLoop k x leaf hx hxk⟩

end Navigable

/-! ## Pages that bring a search forward -/

/-- `linear_search` on a page with an even `switch_counter` does not read `last_index`. -/
theorem Page.linearSearch_lastIndex (p : Page) (hforward : p.isForward = true)
    (firstKey : Addr → Option ℕ) (i : ℤ) (k : ℕ) :
    Page.linearSearch firstKey { p with lastIndex := i } k = p.linearSearch firstKey k := by
  have hleaf : ∀ fuel j,
      Page.leafScan { p with lastIndex := i } k fuel j = p.leafScan k fuel j := fun fuel j => by
    rw [Page.leafScan_eq_find?, Page.leafScan_eq_find?]
    rfl
  have hinner : ∀ fuel j,
      Page.innerScan { p with lastIndex := i } k fuel j = p.innerScan k fuel j := by
    intro fuel
    induction fuel with
    | zero => exact fun _ => rfl
    | succ fuel ih => exact fun j => by simp only [Page.innerScan, ih]
  have hforward' : Page.isForward { p with lastIndex := i } = true := hforward
  simp only [Page.linearSearch, Page.leafRet, Page.innerRet, hforward, hforward', if_true, hleaf,
    hinner]
  rfl

namespace Shape

variable {S S' : Shape} {firstKey firstKey' : Addr → Option ℕ} {l lo n : ℕ} {p : Page}

/-- The pointer `a` is null, or it leads to a page of the level further right whose first
key is not below its fence. -/
def Leads (S : Shape) (firstKey : Addr → Option ℕ) (l lo : ℕ) (a : Addr) : Prop :=
  a = 0 ∨ ∃ y first, S.addr l y = some a ∧ lo < y ∧ firstKey a = some first ∧ y ≤ first

/-- The records of a page lead to what the shape has at their keys, its sibling pointer
leads to the right, and a leaf that lacks a key of the map sends the search on. -/
structure Guided (S : Shape) (firstKey : Addr → Option ℕ) (l lo : ℕ) (p : Page) (n : ℕ) :
    Prop where
  live : p.Live n
  pos : l ≠ 0 → 0 < n
  stale : n = 0 → p.ptr 1 = 0
  leaf : l = 0 → p.leftmostPtr = 0
  inner : l ≠ 0 → S.contents l lo = some p.leftmostPtr
  has : ∀ x y, p.Has n x y → S.contents l x = some y ∧ (l ≠ 0 → x ≠ lo)
  sibling : S.Leads firstKey l lo p.siblingPtr
  complete : l = 0 → ∀ k y, lo ≤ k → S.map k = some y →
    p.Has n k y ∨ p.siblingPtr ≠ 0 ∧ ∃ first, firstKey p.siblingPtr = some first ∧ first ≤ k

/-- What `pmalloc` promises: different keys have different values, different fences have
different pages, and neither a value nor null is the address of a page. -/
structure Apart (S : Shape) : Prop where
  inj : ∀ l x x' y, S.contents l x = some y → S.contents l x' = some y → x = x'
  nonnull : ∀ l x a, S.addr l x = some a → a ≠ 0
  values : ∀ x y l lo, S.map x = some y → S.addr l lo ≠ some y

/-- The test of the sibling's first key moves right, or says that the key is below it. -/
theorem Leads.orSibling (h : S.Leads firstKey l lo p.siblingPtr) (k : ℕ) (other : Addr) :
    (p.orSibling firstKey k other = some p.siblingPtr ∧
      ∃ y, lo < y ∧ y ≤ k ∧ S.addr l y = some p.siblingPtr) ∨
    (p.orSibling firstKey k other = some other ∧
      (p.siblingPtr ≠ 0 → ∀ first, firstKey p.siblingPtr = some first → k < first)) := by
  unfold Page.orSibling
  by_cases h0 : p.siblingPtr = 0
  · exact Or.inr ⟨if_pos h0, fun hne => absurd h0 hne⟩
  · obtain ⟨y, first, hy, hlt, hfirst, hle⟩ := h.resolve_left h0
    rw [if_neg h0, hfirst, Option.map_some]
    by_cases hk : first ≤ k
    · exact Or.inl ⟨by rw [if_pos hk], y, hlt, hle.trans hk, hy⟩
    · refine Or.inr ⟨by rw [if_neg hk], fun _ first' hfirst' => ?_⟩
      exact Option.some.inj hfirst' ▸ not_le.mp hk

theorem Guided.adjacent (h : S.Guided firstKey l lo p n) (hS : S.Apart) : p.Adjacent n :=
  adjacent_of_inj h.live.sound (fun x y hxy => (h.has x y hxy).1) (hS.inj l)

theorem Guided.directs_leaf (h : S.Guided firstKey 0 lo p n) (hS : S.Apart) :
    S.Directs firstKey 0 lo p := by
  refine ⟨iff_of_true (h.leaf rfl) rfl, fun k hk => ?_⟩
  by_cases hhas : ∃ y, p.Has n k y
  · obtain ⟨y, hy⟩ := hhas
    have hmap : S.map k = some y := (h.has k y hy).1
    have hvalue : (S.map k).getD 0 = y := by rw [hmap]; rfl
    refine ⟨y, Page.search_leaf_has h.live.sound (h.leaf rfl) (h.adjacent hS) hy, ?_⟩
    rw [← hvalue]
    refine .found fun heq => ?_
    -- a value is not the address of a page
    refine h.sibling.resolve_right ?_
    rintro ⟨z, -, hz, -⟩
    exact hS.values k _ 0 z hmap (by rw [hz, ← heq, hvalue])
  · have habsent : ∀ i < n, p.key i ≠ k := fun i hi heq => hhas ⟨_, i, hi, heq, rfl⟩
    rw [Page.search_leaf_absent h.live.sound (h.leaf rfl) h.stale habsent]
    rcases h.sibling.orSibling k 0 with ⟨heq, y, hlt, hle, hy⟩ | ⟨heq, hbelow⟩
    · exact ⟨_, heq, .right hlt hle hy⟩
    · have hmap : S.map k = none := by
        by_contra hne
        obtain ⟨y, hy⟩ := Option.ne_none_iff_exists'.mp hne
        rcases h.complete rfl k y hk hy with hp | ⟨h0, first, hfirst, hle⟩
        · exact hhas ⟨y, hp⟩
        · exact absurd (hbelow h0 first hfirst) (not_lt.mpr hle)
      have hvalue : (S.map k).getD 0 = 0 := by rw [hmap]; rfl
      refine ⟨_, heq.trans (congrArg some hvalue.symm), .found fun h0 => ?_⟩
      exact h0.symm.trans hvalue

theorem Guided.directs_inner (h : S.Guided firstKey (l + 1) lo p n) (hS : S.Apart) :
    S.Directs firstKey (l + 1) lo p := by
  have hl : l + 1 ≠ 0 := Nat.succ_ne_zero l
  have hpos : 0 < n := h.pos hl
  have hleftmost : S.addr l lo = some p.leftmostPtr := h.inner hl
  have hnull : p.leftmostPtr ≠ 0 := hS.nonnull l lo _ hleftmost
  have hfirst : p.leftmostPtr ≠ p.ptr 0 := by
    intro heq
    have hentry := h.has _ _ ⟨0, hpos, rfl, heq.symm⟩
    exact hentry.2 hl (hS.inj (l + 1) _ _ _ hentry.1 hleftmost)
  refine ⟨iff_of_false hnull hl, fun k hk => ?_⟩
  obtain ⟨child, heq, hchild⟩ : ∃ child, p.linearSearch firstKey k = _ ∧ _ :=
    Page.search_inner h.live.sound hpos hnull (h.adjacent hS) hfirst k
  -- whichever child it is, its fence is not above the key
  have hdown : S.Step p k (l + 1) lo child := by
    rcases hchild with ⟨-, rfl⟩ | ⟨m, hm, hle, -, rfl⟩
    · exact .down hk hleftmost
    · exact .down hle (h.has _ _ ⟨m, hm, rfl, rfl⟩).1
  rw [heq]
  rcases h.sibling.orSibling k child with ⟨heq, y, hlt, hle, hy⟩ | ⟨heq, -⟩
  · exact ⟨_, heq, .right hlt hle hy⟩
  · exact ⟨child, heq, hdown⟩

/-- **A guided page brings a search forward.** -/
theorem Guided.directs (h : S.Guided firstKey l lo p n) (hS : S.Apart) :
    S.Directs firstKey l lo p := by
  cases l with
  | zero => exact h.directs_leaf hS
  | succ l => exact h.directs_inner hS

theorem Directs.lastIndex (h : S.Directs firstKey l lo p) (hforward : p.isForward = true) (i : ℤ) :
    S.Directs firstKey l lo { p with lastIndex := i } := by
  refine ⟨h.1, fun k hk => ?_⟩
  obtain ⟨r, hsearch, hstep⟩ := h.2 k hk
  refine ⟨r, (p.linearSearch_lastIndex hforward firstKey i k).trans hsearch, ?_⟩
  cases hstep with
  | right hlt hle hy => exact .right (p := { p with lastIndex := i }) hlt hle hy
  | down hle hy => exact .down hle hy
  | found hvalue => exact .found hvalue

theorem Guided.mono (h : S.Guided firstKey l lo p n)
    (hcontents : ∀ l x y, S.contents l x = some y → S'.contents l x = some y)
    (hmap : S'.map = S.map)
    (hfirst : p.siblingPtr ≠ 0 → firstKey' p.siblingPtr = firstKey p.siblingPtr) :
    S'.Guided firstKey' l lo p n where
  live := h.live
  pos := h.pos
  stale := h.stale
  leaf := h.leaf
  inner hl := hcontents l lo _ (h.inner hl)
  has x y hxy := ⟨hcontents l x y (h.has x y hxy).1, (h.has x y hxy).2⟩
  sibling := by
    by_cases h0 : p.siblingPtr = 0
    · exact Or.inl h0
    · obtain ⟨y, first, hy, hlt, heq, hle⟩ := h.sibling.resolve_left h0
      exact Or.inr ⟨y, first, hcontents (l + 1) y _ hy, hlt, (hfirst h0).trans heq, hle⟩
  complete hl k y hk hy := by
    refine (h.complete hl k y hk (hmap ▸ hy)).imp_right fun ⟨h0, first, heq, hle⟩ => ?_
    exact ⟨h0, first, (hfirst h0).trans heq, hle⟩

end Shape

/-! ## A page and the page split off it -/

theorem rightHalf_first {p : Page} {n : ℕ} (h : p.Live n) (hn : n = cardinality - 1) :
    (∃ y, p.Has n ((rightHalf p n).page.key 0) y) ∧ p.key (n / 2) ≤ (rightHalf p n).page.key 0 ∧
      (p.leftmostPtr = 0 → ∀ x y, p.Has n x y → p.key (n / 2) ≤ x →
        (rightHalf p n).page.key 0 ≤ x) := by
  obtain ⟨j, hj, -, -, -, hlive, -, -, -, hhas⟩ := rightHalf_spec h.sound hn
  have hpos : 0 < j := Nat.lt_of_lt_of_le (by decide) hj
  obtain ⟨hfirst, hle, -⟩ := (hhas _ _).mp ⟨0, hpos, rfl, rfl⟩
  refine ⟨⟨_, hfirst⟩, hle, fun hleaf x y hx hmid => ?_⟩
  obtain ⟨i, hi, rfl, -⟩ := (hhas x y).mpr ⟨hx, hmid, absurd hleaf⟩
  exact hlive.sound.key_zero_le hi

namespace Shape

/-- The shape `S'` has one page more than `S`: the right half of the full page `p`, at the
middle key of `p`. -/
structure Linked (S S' : Shape) (firstKey firstKey' : Addr → Option ℕ) (l lo : ℕ) (p : Page)
    (n : ℕ) (b : Addr) : Prop where
  guided : S.Guided firstKey l lo p n
  full : n = cardinality - 1
  lt : lo < p.key (n / 2)
  below : ∀ y, S.addr l y = some p.siblingPtr → ∀ x v, p.Has n x v → x < y
  contents : ∀ l x y, S.contents l x = some y → S'.contents l x = some y
  map : S'.map = S.map
  addr : S'.addr l (p.key (n / 2)) = some b
  nonnull : b ≠ 0
  first : firstKey' b = some ((rightHalf p n).page.key 0)
  sibling : p.siblingPtr ≠ 0 → firstKey' p.siblingPtr = firstKey p.siblingPtr

namespace Linked

variable {S S' : Shape} {firstKey firstKey' : Addr → Option ℕ} {l lo n : ℕ} {p : Page} {b : Addr}

section

variable (h : Linked S S' firstKey firstKey' l lo p n b)

include h

theorem leads : S'.Leads firstKey' l lo b :=
  Or.inr ⟨p.key (n / 2), _, h.addr, h.lt, h.first, (rightHalf_first h.guided.live h.full).2.1⟩

theorem first_le {k first : ℕ} (h0 : p.siblingPtr ≠ 0) (hfirst : firstKey p.siblingPtr = some first)
    (hle : first ≤ k) : b ≠ 0 ∧ ∃ first', firstKey' b = some first' ∧ first' ≤ k := by
  obtain ⟨y, first', hy, -, hfirst', hyfirst⟩ := h.guided.sibling.resolve_left h0
  obtain rfl : first' = first := Option.some.inj (hfirst'.symm.trans hfirst)
  obtain ⟨v, hv⟩ := (rightHalf_first h.guided.live h.full).1
  exact ⟨h.nonnull, _, h.first, (h.below y hy _ v hv).le.trans (hyfirst.trans hle)⟩

/-- **The full page**, once its sibling pointer is the new page. -/
theorem guided_full {c : ℕ}
    (hc : Page.isForward { p with siblingPtr := b, switchCounter := c } = true) :
    S'.Guided firstKey' l lo { p with siblingPtr := b, switchCounter := c } n where
  live := { h.guided.live with forward := hc }
  pos := h.guided.pos
  stale := h.guided.stale
  leaf := h.guided.leaf
  inner hl := h.contents l lo _ (h.guided.inner hl)
  has x y hxy := ⟨h.contents l x y (h.guided.has x y hxy).1, (h.guided.has x y hxy).2⟩
  sibling := h.leads
  complete hl k y hk hy := by
    refine (h.guided.complete hl k y hk (h.map ▸ hy)).imp_right ?_
    rintro ⟨h0, first, hfirst, hle⟩
    exact h.first_le h0 hfirst hle

/-- **The left half**: a key that is not in it any more is not below the first key of the
new page. -/
theorem guided_leftHalf : S'.Guided firstKey' l lo (leftHalf p n b) (n / 2) := by
  have hcard : cardinality = 30 := rfl
  have hn : 0 < n := by have := h.full; omega
  have hhas := leftHalf_has h.guided.live.sound hn b
  refine ⟨leftHalf_live h.guided.live.sound b, fun _ => ?_, fun h0 => ?_, h.guided.leaf,
    fun hl => h.contents l lo _ (h.guided.inner hl), fun x y hxy => ?_, h.leads,
    fun hl k y hk hy => ?_⟩
  · have := h.full
    omega
  · have := h.full
    omega
  · have hentry := h.guided.has x y ((hhas x y).mp hxy).1
    exact ⟨h.contents l x y hentry.1, hentry.2⟩
  · rcases h.guided.complete hl k y hk (h.map ▸ hy) with hp | ⟨h0, first, hfirst, hle⟩
    · rcases Nat.lt_or_ge k (p.key (n / 2)) with hlt | hge
      · exact Or.inl ((hhas k y).mpr ⟨hp, hlt⟩)
      · refine Or.inr ⟨h.nonnull, _, h.first, ?_⟩
        exact (rightHalf_first h.guided.live h.full).2.2 (h.guided.leaf hl) k y hp hge
    · exact Or.inr (h.first_le h0 hfirst hle)

/-- **The new page**, behind which the old sibling follows. -/
theorem guided_rightHalf (hS : S.Apart) :
    ∃ j, S'.Guided firstKey' l (p.key (n / 2)) (rightHalf p n).page j := by
  have hcard : cardinality = 30 := rfl
  obtain ⟨j, hj, -, -, -, hlive, hsibling, -, hleftmost, hhas⟩ :=
    rightHalf_spec h.guided.live.sound h.full
  have hpos : 0 < j := Nat.lt_of_lt_of_le (by decide) hj
  have hmid : p.Has n (p.key (n / 2)) (p.ptr (n / 2)) :=
    ⟨n / 2, by have := h.full; omega, rfl, rfl⟩
  have hleaf : l ≠ 0 → p.leftmostPtr ≠ 0 := by
    intro hl
    have hchild := h.guided.inner hl
    obtain ⟨l', rfl⟩ := Nat.exists_eq_succ_of_ne_zero hl
    exact hS.nonnull l' lo _ hchild
  refine ⟨j, hlive, fun _ => hpos, fun h0 => absurd h0 hpos.ne', fun hl => ?_, fun hl => ?_,
    fun x y hxy => ?_, ?_, fun hl k y hk hy => ?_⟩
  · rw [hleftmost, if_pos (h.guided.leaf hl)]
  · rw [hleftmost, if_neg (hleaf hl)]
    exact h.contents l _ _ (h.guided.has _ _ hmid).1
  · obtain ⟨hp, -, hne⟩ := (hhas x y).mp hxy
    exact ⟨h.contents l x y (h.guided.has x y hp).1, fun hl => hne (hleaf hl)⟩
  · rw [hsibling]
    by_cases h0 : p.siblingPtr = 0
    · exact Or.inl h0
    · obtain ⟨y, first, hy, -, hfirst, hle⟩ := h.guided.sibling.resolve_left h0
      exact Or.inr ⟨y, first, h.contents (l + 1) y _ hy, h.below y hy _ _ hmid,
        (h.sibling h0).trans hfirst, hle⟩
  · rw [hsibling]
    rcases h.guided.complete hl k y (h.lt.le.trans hk) (h.map ▸ hy) with
      hp | ⟨h0, first, hfirst, hle⟩
    · exact Or.inl ((hhas k y).mpr ⟨hp, hk, absurd (h.guided.leaf hl)⟩)
    · exact Or.inr ⟨h0, first, (h.sibling h0).trans hfirst, hle⟩

end

end Linked

end Shape

/-! ## Trees in order, and trees in the middle of a split -/

section Rep

variable {alloc : ℕ → Addr} {t t' : Tree} {S : Shape} {σ : Slack} {l lo n : ℕ}
  {a b : Addr} {p p' : Page}

/-- The pages of a tree without removals are guided, whatever page is still pending. -/
theorem Rep.guided (h : Rep alloc t S σ) (hforward : ¬ σ.removals) (ha : S.addr l lo = some a)
    (hp : S.NodeOk σ l lo p n) : S.Guided t.firstKey l lo p n where
  live := hp.sound.live (hp.forward hforward)
  pos hl := hp.pos (Or.inl hl)
  stale := hp.stale
  leaf := hp.leaf
  inner := hp.inner
  has x y hxy := ⟨((hp.has x y).mp hxy).1, ((hp.has x y).mp hxy).2.2.1⟩
  sibling := by
    refine hp.sibling.imp And.right ?_
    rintro ⟨y, hnext, hy⟩
    obtain ⟨first, v, hfirst, hentry, -⟩ := h.firstKey_entry hy (Nat.ne_zero_of_lt hnext.2.1)
    exact ⟨y, first, hy, hnext.2.1, hfirst, hentry.2.1.2.1⟩
  complete hl k y hk hy := by
    subst hl
    have hpend : ¬ σ.pend 0 k := fun hc => by
      obtain ⟨l', hl', -⟩ := h.ok.pending 0 k hc
      exact absurd hl' (Nat.succ_ne_zero l').symm
    have hentry : ∀ lo, Covers (S.fences 0) k lo → S.Entry σ 0 lo k y :=
      fun lo hcov => ⟨hy, hcov, fun h0 => absurd rfl h0, hpend⟩
    rcases hp.sibling with ⟨hlast, -⟩ | ⟨z, hnext, hz⟩
    · exact Or.inl ((hp.has k y).mpr (hentry lo (hlast.covers ⟨a, ha⟩ hk)))
    · rcases Nat.lt_or_ge k z with hkz | hzk
      · exact Or.inl ((hp.has k y).mpr (hentry lo (hnext.covers ⟨a, ha⟩ hk hkz)))
      · obtain ⟨first, v, hfirst, hmin, hleast⟩ :=
          h.firstKey_entry hz (Nat.ne_zero_of_lt hnext.2.1)
        refine Or.inr ⟨h.ok.nonnull 0 z _ hz, first, hfirst, ?_⟩
        -- in front of its first key the sibling covers the key, and has it
        by_contra hlt
        exact hlt (hleast k y (hentry z (hmin.2.1.of_le hzk (not_le.mp hlt).le)))

theorem Rep.apart (h : Rep alloc t S σ)
    (hdistinct : ∀ x x' y, S.map x = some y → S.map x' = some y → x = x')
    (hpages : ∀ x y l lo, S.map x = some y → S.addr l lo ≠ some y) : S.Apart where
  inj l x x' y hx hx' := by
    cases l with
    | zero => exact hdistinct x x' y hx hx'
    | succ l => exact (h.ok.inj l x l x' y hx hx').2
  nonnull := h.ok.nonnull
  values := hpages

theorem Shape.cut_addr_cases {s l' x : ℕ} (h : (S.cut l s b).addr l' x = some a) :
    (l' = l ∧ x = s ∧ a = b) ∨ S.addr l' x = some a := by
  by_cases e : (l', x) = (l, s)
  · obtain ⟨rfl, rfl⟩ := Prod.mk.inj e
    rw [Shape.cut_addr_self] at h
    exact Or.inl ⟨rfl, rfl, (Option.some.inj h).symm⟩
  · rw [Shape.cut_addr_of_ne e] at h
    exact Or.inr h

theorem Shape.Apart.cut {s : ℕ} (hS : S.Apart) (hfresh : ∀ l x, S.addr l x ≠ some b) (hnull : b ≠ 0)
    (hvalue : ∀ x, S.map x ≠ some b) : (S.cut l s b).Apart where
  inj l' x x' y hx hx' := by
    cases l' with
    | zero => exact hS.inj 0 x x' y hx hx'
    | succ l' =>
      rcases Shape.cut_addr_cases hx with ⟨-, hxs, rfl⟩ | hxold
      · rcases Shape.cut_addr_cases hx' with ⟨-, hxs', -⟩ | hxold'
        · rw [hxs, hxs']
        · exact absurd hxold' (hfresh l' x')
      · rcases Shape.cut_addr_cases hx' with ⟨-, -, rfl⟩ | hxold'
        · exact absurd hxold (hfresh l' x)
        · exact hS.inj (l' + 1) x x' y hxold hxold'
  nonnull l' x a ha := by
    rcases Shape.cut_addr_cases ha with ⟨-, -, rfl⟩ | ha
    · exact hnull
    · exact hS.nonnull l' x a ha
  values x y l' lo hx ha := by
    rcases Shape.cut_addr_cases ha with ⟨-, -, rfl⟩ | ha
    · exact hvalue x hx
    · exact hS.values x y l' lo hx ha

section

variable (h : Rep alloc t S σ) (hforward : ¬ σ.removals)

include h hforward

theorem Rep.navigable (hS : S.Apart) (hroot : t'.root = t.root)
    (hheap : ∀ l lo a, S.addr l lo = some a → t'.heap a = t.heap a) : Navigable t' S where
  root := hroot ▸ h.root
  nonnull := h.ok.nonnull
  page l lo a ha := by
    obtain ⟨p, n, hp, hnode⟩ := h.page l lo a ha
    have hguided := h.guided hforward ha hnode
    refine ⟨p, (hheap l lo a ha).trans hp,
      (hguided.mono (fun _ _ _ hx => hx) rfl fun h0 => ?_).directs hS⟩
    obtain ⟨y, first, hy, -⟩ := hguided.sibling.resolve_left h0
    rw [Tree.firstKey, Tree.firstKey, hheap l y _ hy]

/-- The page being split and the new page, in a tree that has the new page in it and has
left the first key of the old one as it was. -/
theorem Rep.linked (ha : S.addr l lo = some a) (hp : S.NodeOk σ l lo p n) (hn : n = cardinality - 1)
    (hnull : b ≠ 0) (hb : t'.heap b = some (rightHalf p n).page)
    (hfirst : ∀ l lo c, S.addr l lo = some c → t'.firstKey c = t.firstKey c) :
    S.Linked (S.cut l (p.key (n / 2)) b) t.firstKey t'.firstKey l lo p n b := by
  have hcard : cardinality = 30 := rfl
  have hguided := h.guided hforward ha hp
  have hmid : p.Has n (p.key (n / 2)) (p.ptr (n / 2)) := ⟨n / 2, by omega, rfl, rfl⟩
  have hcut : S.CutAt l lo (p.key (n / 2)) :=
    hp.cutAt (m := S.map) ⟨a, ha⟩ hmid (hp.sound.sorted 0 _ (by omega) (by omega))
  refine ⟨hguided, hn, hcut.lt, fun y hy x v hx => ?_, fun l' x y hx => ?_, rfl,
    Shape.cut_addr_self, hnull, by rw [Tree.firstKey, hb]; rfl, fun h0 => ?_⟩
  · rcases hp.sibling with ⟨-, h0⟩ | ⟨z, hnext, hz⟩
    · exact absurd h0 (h.ok.nonnull l y _ hy)
    · obtain ⟨-, rfl⟩ := h.ok.inj _ _ _ _ _ hy hz
      exact ((hp.has x v).mp hx).2.1.lt_of_lt hnext.1 hnext.2.1
  · cases l' with
    | zero => exact hx
    | succ l' =>
      refine (Shape.cut_addr_of_ne fun heq => ?_).trans hx
      obtain ⟨rfl, rfl⟩ := Prod.mk.inj heq
      exact hcut.notMem ⟨y, hx⟩
  · obtain ⟨y, first, hy, -⟩ := hguided.sibling.resolve_left h0
    exact hfirst l y _ hy

/-- **A tree with the new page linked can be navigated**, when the page being split brings
a search forward. -/
theorem Rep.navigable_linked (hS : S.Apart) (ha : S.addr l lo = some a) (hpa : t.heap a = some p)
    (hp : S.NodeOk σ l lo p n) (hn : n = cardinality - 1) (hnull : b ≠ 0)
    (hfresh : ∀ l x, S.addr l x ≠ some b) (hvalue : ∀ x, S.map x ≠ some b)
    (hroot : t'.root = t.root) (hheap : ∀ c, c ≠ a → c ≠ b → t'.heap c = t.heap c)
    (hb : t'.heap b = some (rightHalf p n).page) (ha' : t'.heap a = some p')
    (hkey : p'.key 0 = p.key 0)
    (hdirects : S.Linked (S.cut l (p.key (n / 2)) b) t.firstKey t'.firstKey l lo p n b →
      (S.cut l (p.key (n / 2)) b).Directs t'.firstKey l lo p') :
    Navigable t' (S.cut l (p.key (n / 2)) b) := by
  have hfirst : ∀ l lo c, S.addr l lo = some c → t'.firstKey c = t.firstKey c := by
    intro l lo c hc
    have hcb : c ≠ b := fun heq => hfresh l lo (heq ▸ hc)
    by_cases hca : c = a
    · subst hca
      rw [Tree.firstKey, Tree.firstKey, ha', hpa, Option.map_some, Option.map_some, hkey]
    · rw [Tree.firstKey, Tree.firstKey, hheap c hca hcb]
  have hlinked := h.linked hforward ha hp hn hnull hb hfirst
  have hapart := hS.cut (l := l) (s := p.key (n / 2)) hfresh hnull hvalue
  refine ⟨?_, hapart.nonnull, fun l' lo' c hc => ?_⟩
  · rw [hroot]
    exact hlinked.contents (S.top + 1) 0 _ h.root
  · rcases Shape.cut_addr_cases hc with ⟨rfl, rfl, rfl⟩ | hc
    · obtain ⟨j, hright⟩ := hlinked.guided_rightHalf hS
      exact ⟨_, hb, hright.directs hapart⟩
    · by_cases hca : c = a
      · subst hca
        obtain ⟨rfl, rfl⟩ := h.ok.inj _ _ _ _ _ hc ha
        exact ⟨p', ha', hdirects hlinked⟩
      · obtain ⟨q, m, hq, hnode⟩ := h.page l' lo' c hc
        have hguided := h.guided hforward hc hnode
        refine ⟨q, (hheap c hca fun heq => hfresh l' lo' (heq ▸ hc)).trans hq,
          (hguided.mono hlinked.contents rfl fun h0 => ?_).directs hapart⟩
        obtain ⟨y, first, hy, -⟩ := hguided.sibling.resolve_left h0
        exact hfirst l' y _ hy

end

end Rep

end McfKv.Btree
