import McfKv.Index.FFBtreeDelete

/-!
# Runs of `Insert` and `Remove` on the FAST and FAIR tree (`multi-cuckoo-index/ff_btreee.cc`)

`Reached` are the trees that calls of `Insert` and `Remove` lead to. Every one of them is
`Steady`: it is in order, although pages may be scanned from right to left and `height` may be
larger than the number of levels. This is shown for one round of `Remove`, for a call, and for
all calls by induction.

A call of `Remove` repeats itself when `Page::remove` returns `false`.

* `remove_returns_iff` — this goes on for ever if the leaf of the key has a sibling and more
  than the least number of entries, but not the key. Nothing but the direction of the leaf
  changes in a round, and so the next one is the same. In all other cases one round is enough.
-/

namespace McfKv.Btree

open Fence

/-! ## One round of `Remove` -/

/-- A tree between two operations, and its shape. No value is the address of a page. -/
structure Steady (alloc : ℕ → Addr) (t : Tree) (S : Shape) : Prop where
  rep : Rep alloc t S .loose
  top : S.Top
  values : ∀ x y, S.map x = some y → ∀ i, alloc i ≠ y

/-- Different keys have different values. -/
def Shape.Distinct (S : Shape) : Prop := ∀ x x' y, S.map x = some y → S.map x' = some y → x = x'

section Round

variable {alloc : ℕ → Addr} {t : Tree} {S : Shape} {k lo n : ℕ} {a : Addr} {p : Page}

theorem Steady.not_page (h : Steady alloc t S) {x : ℕ} {y : Addr} (hy : S.map x = some y)
    (l lo : ℕ) : S.addr l lo ≠ some y := fun ha => by
  obtain ⟨i, -, hi⟩ := h.rep.used l lo y ha
  exact h.values x y hy i hi

theorem Steady.search (h : Steady alloc t S) (hdistinct : S.Distinct) (k : ℕ) :
    t.search k = some ((S.map k).getD 0) :=
  h.rep.search h.top (Slack.complete_loose 0) hdistinct (fun _ _ l lo hy => h.not_page hy l lo) k

/-- The leaf that covers a key. -/
structure LeafOf (t : Tree) (S : Shape) (k lo : ℕ) (a : Addr) (p : Page) (n : ℕ) : Prop where
  addr : S.addr 0 lo = some a
  covers : Covers (S.fences 0) k lo
  heap : t.heap a = some p
  node : S.NodeOk .loose 0 lo p n

theorem Steady.leafOf (h : Steady alloc t S) (k : ℕ) : ∃ lo a p n, LeafOf t S k lo a p n ∧
    t.descend k (fun p => p.leftmostPtr = 0) t.height t.root = some a := by
  obtain ⟨lo, a, ha, hk, hdescend⟩ := h.rep.descend_leaf h.top (Slack.complete_loose 1) k
  obtain ⟨p, n, hheap, hp⟩ := h.rep.page _ _ _ ha
  exact ⟨lo, a, p, n, ⟨ha, hk, hheap, hp⟩, hdescend⟩

theorem Steady.descend (h : Steady alloc t S) (hleaf : LeafOf t S k lo a p n) :
    t.descend k (fun p => p.leftmostPtr = 0) t.height t.root = some a := by
  obtain ⟨lo', a', _, _, hleaf', hdescend⟩ := h.leafOf k
  obtain rfl := hleaf'.covers.unique hleaf.covers
  obtain rfl : a' = a := Option.some.inj (hleaf'.addr.symm.trans hleaf.addr)
  exact hdescend

theorem LeafOf.held (h : LeafOf t S k lo a p n) {y : Addr} (hy : S.map k = some y) :
    ∃ i < n, p.key i = k ∧ p.ptr i = y :=
  (h.node.has k y).mpr ⟨hy, h.covers, fun h0 => absurd rfl h0, id⟩

/-- The second loop of `Remove` stops on the leaf of the key, unless this is the last leaf and
a search does not see the key there. -/
theorem Steady.leafFor (h : Steady alloc t S) (hleaf : LeafOf t S k lo a p n) :
    ∃ r, p.Finds k (· < n) r ∧
      t.leafFor k t.next a = some (if r = 0 ∧ p.siblingPtr = 0 then 0 else a) := by
  have hp := hleaf.node
  obtain ⟨fuel, hfuel⟩ := Nat.exists_eq_succ_of_ne_zero h.rep.next_pos.ne'
  obtain ⟨r, hret, hfinds⟩ := Page.leafRet_finds hp.sound hp.stale k
  refine ⟨r, hfinds, ?_⟩
  have hsearch : p.linearSearch t.firstKey k = some r := by
    rw [Page.linearSearch, if_pos (hp.leaf rfl), hret, Option.bind_some,
      h.rep.orSibling hp fun y => hleaf.covers.lt_of_lt]
    split_ifs with hr
    · rfl
    · rw [not_not.mp hr]
  rw [hfuel, Tree.leafFor, hleaf.heap, Option.bind_some, hsearch, Option.bind_some]
  rcases hfinds with ⟨i, hi, hvalid, -, rfl⟩ | ⟨rfl, -⟩
  · have hmap : S.map (p.key i) = some (p.ptr i) := ((hp.has _ _).mp ⟨i, hi, rfl, rfl⟩).1
    have hsib : p.ptr i ≠ p.siblingPtr := fun heq => by
      rcases hp.sibling with ⟨-, h0⟩ | ⟨y, -, hy⟩
      · exact hvalid.1 (heq.trans h0)
      · exact h.not_page hmap _ _ (heq ▸ hy)
    rw [if_neg hsib, if_neg fun hc => hvalid.1 hc.1]
  · by_cases hsib : p.siblingPtr = 0
    · rw [if_pos hsib.symm, if_pos rfl, if_pos ⟨rfl, hsib⟩]
    · rw [if_neg (Ne.symm hsib), if_neg fun hc => hsib hc.2]

/-- The map after a call of `Remove`. It lacks the key, but for a key that a search does not
see, because its value repeats that of the key before. -/
structure Shape.Removed (S S' : Shape) (k : ℕ) : Prop where
  sub : ∀ x y, S'.map x = some y → S.map x = some y
  map : S.Distinct → S'.map = Function.update S.map k none

theorem Shape.removed_update {S' : Shape} (h : S'.map = Function.update S.map k none) :
    S.Removed S' k where
  sub x y hy := by
    rw [h] at hy
    by_cases hx : x = k
    · rw [hx, Function.update_self] at hy
      exact absurd hy (by simp)
    · rwa [Function.update_of_ne hx] at hy
  map _ := h

theorem Shape.Removed.distinct {S' : Shape} (h : S.Removed S' k) (hS : S.Distinct) : S'.Distinct :=
  fun x x' y hx hx' => hS x x' y (h.sub x y hx) (h.sub x' y hx')

theorem Shape.Removed.trans {S' S'' : Shape} (h : S.Removed S' k) (h' : S'.Removed S'' k) :
    S.Removed S'' k where
  sub x y hy := h.sub x y (h'.sub x y hy)
  map hS := by rw [h'.map (h.distinct hS), h.map hS, Function.update_idem]

/-- **One round of `Remove`** runs through. It is repeated only when the leaf has a sibling
and more than the least number of entries, and does not hold the key. -/
theorem Steady.removeRound (h : Steady alloc t S) (halloc : Function.Injective alloc)
    (hnull : ∀ i, alloc i ≠ 0) (hleaf : LeafOf t S k lo a p n) :
    ∃ t' S' found, t.removeRound alloc k = some (t', found) ∧ Steady alloc t' S' ∧ S.Removed S' k ∧
      (found = false → p.siblingPtr ≠ 0 ∧ minEntries < n ∧ ∀ i < n, p.key i ≠ k) := by
  have hp := hleaf.node
  obtain ⟨r, hfinds, hstop⟩ := h.leafFor hleaf
  have hheight : S.top + 1 ≤ t.height := h.rep.height_le
  unfold Tree.removeRound
  rw [h.descend hleaf, Option.bind_some, hstop, Option.bind_some]
  by_cases hlast : r = 0 ∧ p.siblingPtr = 0
  · -- nothing is removed; distinct values are all seen
    rw [if_pos hlast, if_pos rfl]
    refine ⟨t, S, true, rfl, h, ⟨fun _ _ => id, fun hdistinct => ?_⟩, fun hc => absurd hc (by simp)⟩
    have hnone : S.map k = none := by
      by_contra hne
      obtain ⟨y, hy⟩ := Option.ne_none_iff_exists'.mp hne
      obtain ⟨i, hi, hkey, -⟩ := hleaf.held hy
      have hvalid := hp.sound.valid
        (adjacent_of_inj hp.sound (fun x y hxy => ((hp.has x y).mp hxy).1) hdistinct) hi
      rcases hfinds with ⟨j, -, hvalid', -, hr⟩ | ⟨-, habsent⟩
      · exact hvalid'.1 (hr.symm.trans hlast.1)
      · exact habsent i hi hvalid hkey
    rw [← hnone, Function.update_eq_self]
  · have ha0 : a ≠ 0 := h.rep.ok.nonnull _ _ _ hleaf.addr
    obtain ⟨fuel, hfuel⟩ : ∃ fuel, 2 * t.height = fuel + 1 := ⟨2 * t.height - 1, by omega⟩
    obtain ⟨t', S', found, heq, hrep, htop, hmap, -, hfound⟩ :=
      h.rep.removePage_takes trivial (Slack.complete_loose 0) h.top halloc hnull
        (Shape.takes_leaf h.rep.ok k) hleaf.addr hleaf.covers hleaf.heap hp
        (fun h0 => absurd rfl h0) (fun _ h0 => absurd rfl h0) fuel (fun hlt => by
          obtain ⟨f, rfl⟩ : ∃ f, fuel = f + 1 := ⟨fuel - 1, by omega⟩
          exact ⟨f, rfl, removePage_removes halloc hnull (f + 1) 0 S.top (by omega),
            removePage_removes halloc hnull f 0 S.top (by omega)⟩)
    have hremoved := Shape.removed_update hmap
    rw [if_neg hlast, if_neg ha0, hfuel]
    refine ⟨t', S', found, heq, ⟨hrep, htop, fun x y hy => h.values x y (hremoved.sub x y hy)⟩,
      hremoved, fun hf => ⟨fun hsib => hlast ⟨?_, hsib⟩, hfound hf⟩⟩
    rcases hfinds with ⟨i, hi, -, hkey, -⟩ | ⟨hr, -⟩
    · exact absurd hkey ((hfound hf).2 i hi)
    · exact hr

/-- **A whole call of `Remove`** that returns. -/
theorem Steady.remove (halloc : Function.Injective alloc) (hnull : ∀ i, alloc i ≠ 0) (k : ℕ) :
    ∀ rounds t S t', Steady alloc t S → t.remove alloc rounds k = some t' →
      ∃ S', Steady alloc t' S' ∧ S.Removed S' k := by
  intro rounds
  induction rounds with
  | zero =>
    intro t S t' _ heq
    exact absurd heq (by simp [Tree.remove])
  | succ rounds ih =>
    intro t S t' h heq
    obtain ⟨_, _, _, _, hleaf, -⟩ := h.leafOf k
    obtain ⟨t₁, S₁, found, hround, h₁, hremoved, -⟩ := h.removeRound halloc hnull hleaf
    rw [Tree.remove, hround, Option.bind_some] at heq
    split_ifs at heq with hfound
    · obtain rfl : t₁ = t' := Option.some.inj heq
      exact ⟨S₁, h₁, hremoved⟩
    · obtain ⟨S', h', hremoved'⟩ := ih t₁ S₁ t' h₁ heq
      exact ⟨S', h', hremoved.trans hremoved'⟩

end Round

/-! ## The rounds of a call -/

/-- The trees that the rounds of a call of `Remove` start from. -/
inductive Retries (alloc : ℕ → Addr) (k : ℕ) (t : Tree) : Tree → Prop
  | first : Retries alloc k t t
  | again {u u' : Tree} : Retries alloc k t u → u.removeRound alloc k = some (u', false) →
      Retries alloc k t u'

theorem Steady.of_retries {alloc : ℕ → Addr} (halloc : Function.Injective alloc)
    (hnull : ∀ i, alloc i ≠ 0) {t u : Tree} {S : Shape} {k : ℕ} (h : Steady alloc t S)
    (hu : Retries alloc k t u) : ∃ S', Steady alloc u S' := by
  induction hu with
  | first => exact ⟨S, h⟩
  | again _ hround ih =>
    obtain ⟨S₁, h₁⟩ := ih
    obtain ⟨_, _, _, _, hleaf, -⟩ := h₁.leafOf k
    obtain ⟨u', S', found, hround', h', -⟩ := h₁.removeRound halloc hnull hleaf
    obtain ⟨rfl, -⟩ := Prod.mk.inj (Option.some.inj (hround'.symm.trans hround))
    exact ⟨S', h'⟩

/-- The leaf for the key has a sibling and more than the least number of entries, and does
not hold the key. -/
def Stuck (t : Tree) (S : Shape) (k : ℕ) : Prop :=
  ∃ lo a p n, LeafOf t S k lo a p n ∧ p.siblingPtr ≠ 0 ∧ minEntries < n ∧ ∀ i < n, p.key i ≠ k

section Stuck

variable {alloc : ℕ → Addr} {t : Tree} {S : Shape} {k : ℕ}

/-- **A round that changes the direction of a page and nothing else.** -/
theorem Steady.round_of_stuck (h : Steady alloc t S) (hstuck : Stuck t S k) :
    ∃ t', t.removeRound alloc k = some (t', false) ∧ Steady alloc t' S ∧ Stuck t' S k := by
  obtain ⟨lo, a, p, n, hleaf, hsib, hn, habsent⟩ := hstuck
  have hp := hleaf.node
  obtain ⟨r, -, hstop⟩ := h.leafFor hleaf
  rw [if_neg fun hc => hsib hc.2] at hstop
  have hroot : t.root ≠ a := fun hc => by
    obtain ⟨htop, -⟩ := h.rep.ok.inj _ _ _ _ _ (hc ▸ h.rep.root) hleaf.addr
    exact hsib (hp.last_of_top h.top htop)
  have hturned : S.NodeOk .loose 0 lo p.turnedBack n := by
    rw [Page.turnedBack_eq]
    exact { hp with
      sound := Page.turnedBack_eq p ▸ hp.sound.turnedBack
      forward := fun hr => absurd trivial hr }
  have halters : S.Alters .loose S.map .loose 0 lo k :=
    ⟨fun _ _ _ => rfl, fun _ _ _ => Iff.rfl, fun _ _ _ => rfl, id⟩
  have hrep : Rep alloc (t.put a p.turnedBack) S .loose :=
    h.rep.replace halters h.rep.ok.pending hleaf.addr hleaf.covers hturned
  refine ⟨t.put a p.turnedBack, ?_, ⟨hrep, h.top, h.values⟩, lo, a, p.turnedBack, n,
    ⟨hleaf.addr, hleaf.covers, t.put_heap_self a _, hturned⟩, ?_, hn, ?_⟩
  · have hheight : S.top + 1 ≤ t.height := h.rep.height_le
    obtain ⟨fuel, hfuel⟩ : ∃ fuel, 2 * t.height = fuel + 1 := ⟨2 * t.height - 1, by omega⟩
    unfold Tree.removeRound
    rw [h.descend hleaf, Option.bind_some, hstop, Option.bind_some,
      if_neg (h.rep.ok.nonnull _ _ _ hleaf.addr), hfuel, removePage, if_neg (by simp), hleaf.heap,
      Option.bind_some, Page.count_sound hp.sound, Option.bind_some,
      Page.removeKey_absent hp.sound habsent, Option.bind_some, if_neg hroot,
      if_pos (Nat.le_sub_one_of_lt hn), if_pos (hp.leaf rfl)]
  · rwa [Page.turnedBack_eq]
  · rwa [Page.turnedBack_eq]

theorem Steady.retries_of_stuck (h : Steady alloc t S) (hstuck : Stuck t S k) {u : Tree}
    (hu : Retries alloc k t u) : Steady alloc u S ∧ Stuck u S k := by
  induction hu with
  | first => exact ⟨h, hstuck⟩
  | again _ hround ih =>
    obtain ⟨t', hround', h', hstuck'⟩ := ih.1.round_of_stuck ih.2
    obtain ⟨rfl, -⟩ := Prod.mk.inj (Option.some.inj (hround'.symm.trans hround))
    exact ⟨h', hstuck'⟩

theorem Steady.remove_of_stuck (rounds : ℕ) :
    ∀ t, Steady alloc t S → Stuck t S k → t.remove alloc rounds k = none := by
  induction rounds with
  | zero => exact fun _ _ _ => rfl
  | succ rounds ih =>
    intro t h hstuck
    obtain ⟨t', hround, h', hstuck'⟩ := h.round_of_stuck hstuck
    rw [Tree.remove, hround, Option.bind_some, if_neg (by simp)]
    exact ih t' h' hstuck'

end Stuck

/-! ## The trees that `Insert` and `Remove` can reach -/

/-- A tree that a sequence of calls leads to, all of which return. The values are not null and
are not the addresses of pages. -/
inductive Reached (alloc : ℕ → Addr) : Tree → Prop
  | new : Reached alloc (Tree.new alloc)
  | insert {t t' : Tree} {k : ℕ} {q old : Addr} : Reached alloc t → q ≠ 0 → (∀ i, alloc i ≠ q) →
      t.insert alloc k q = some (t', old) → Reached alloc t'
  | remove {t t' : Tree} {rounds k : ℕ} : Reached alloc t →
      t.remove alloc rounds k = some t' → Reached alloc t'

/-- A record of a leaf of the tree. -/
def Tree.Stores (t : Tree) (x : ℕ) (y : Addr) : Prop :=
  ∃ a p n, t.Below t.root a ∧ t.heap a = some p ∧ p.leftmostPtr = 0 ∧ p.count = some n ∧
    p.Has n x y

section Reached

variable {alloc : ℕ → Addr} {t : Tree} {S : Shape}

theorem Rep.loosen (h : Rep alloc t S .tight) : Rep alloc t S .loose where
  ok := ⟨h.ok.zero, h.ok.above, h.ok.nested, h.ok.inj, h.ok.nonnull, h.ok.pending⟩
  root := h.root
  height_le := h.height_le
  height hr := absurd trivial hr
  page l lo a ha := by
    obtain ⟨p, n, hheap, hp⟩ := h.page l lo a ha
    exact ⟨p, n, hheap, { hp with forward := fun hr => absurd trivial hr }⟩
  used := h.used

/-- **Every tree that is reached is in order**, by induction on the calls. -/
theorem Reached.steady (halloc : Function.Injective alloc) (hnull : ∀ i, alloc i ≠ 0)
    (ht : Reached alloc t) : ∃ S, Steady alloc t S := by
  induction ht with
  | new =>
    obtain ⟨hrep, htop⟩ := Rep.new hnull
    exact ⟨_, hrep.loosen, htop, fun x y hy => absurd hy (by simp [Shape.empty])⟩
  | @insert t t' k q old _ hq hpage heq ih =>
    obtain ⟨S, h⟩ := ih
    obtain ⟨t₁, old₁, S', heq', hrep, htop, hmap⟩ :=
      h.rep.insert (Slack.complete_loose 0) h.top halloc hnull k hq
    obtain ⟨rfl, -⟩ := Prod.mk.inj (Option.some.inj (heq'.symm.trans heq))
    refine ⟨S', hrep, htop, fun x y hy => ?_⟩
    rw [hmap] at hy
    by_cases hx : x = k
    · rw [hx, Function.update_self] at hy
      exact Option.some.inj hy ▸ hpage
    · rw [Function.update_of_ne hx] at hy
      exact h.values x y hy
  | remove _ heq ih =>
    obtain ⟨S, h⟩ := ih
    obtain ⟨S', h', -⟩ := Steady.remove halloc hnull _ _ _ _ _ h heq
    exact ⟨S', h'⟩

theorem Steady.stores_iff (h : Steady alloc t S) (x : ℕ) (y : Addr) :
    t.Stores x y ↔ S.map x = some y := by
  constructor
  · rintro ⟨a, p, n, hbelow, hheap, hleaf, hcount, hhas⟩
    obtain ⟨l, -, lo, ha, -⟩ := h.rep.addr_of_below h.rep.root hbelow
    have hp := h.rep.node_of_count ha hheap hcount
    obtain rfl := (h.rep.leftmost_eq_zero_iff hp).mp hleaf
    exact ((hp.has x y).mp hhas).1
  · intro hy
    obtain ⟨lo, a, p, n, hleaf, -⟩ := h.leafOf x
    exact ⟨a, p, n, h.rep.below_of_addr (Slack.complete_loose 0) h.top S.top 0 lo a
      (Nat.zero_add _) hleaf.addr, hleaf.heap, hleaf.node.leaf rfl,
      Page.count_sound hleaf.node.sound, hleaf.held hy⟩

theorem Reached.insertAll {t' : Tree} (ht : Reached alloc t) {ops : List (ℕ × Addr)}
    (hops : ∀ op ∈ ops, op.2 ≠ 0 ∧ ∀ i, alloc i ≠ op.2) (heq : t.insertAll alloc ops = some t') :
    Reached alloc t' := by
  induction ops generalizing t with
  | nil =>
    obtain rfl : t = t' := Option.some.inj heq
    exact ht
  | cons op ops ih =>
    unfold Tree.insertAll at heq
    rw [List.foldlM_cons] at heq
    obtain ⟨t₁, hmapped, hrest⟩ := Option.bind_eq_some_iff.mp heq
    obtain ⟨⟨t₁, old⟩, hinsert, rfl⟩ := Option.map_eq_some_iff.mp hmapped
    obtain ⟨hq, hpage⟩ := hops op List.mem_cons_self
    exact ih (.insert ht hq hpage hinsert) (fun op hop => hops op (List.mem_cons_of_mem _ hop))
      hrest

end Reached

theorem reached_oddPages {ops : List (ℕ × Addr)} (hops : ∀ op ∈ ops, op.2 ≠ 0 ∧ op.2 % 2 = 0)
    {t : Tree} (heq : (Tree.new oddPages).insertAll oddPages ops = some t) : Reached oddPages t :=
  Reached.new.insertAll (fun op hop => ⟨(hops op hop).1, oddPages_ne_even (hops op hop).2⟩) heq

theorem exists_reached_oddPages (ops : List (ℕ × Addr))
    (hops : ∀ op ∈ ops, op.2 ≠ 0 ∧ op.2 % 2 = 0) :
    ∃ t, (Tree.new oddPages).insertAll oddPages ops = some t ∧ Reached oddPages t := by
  obtain ⟨t, -, heq, -⟩ := Rep.insertAll oddPages_injective oddPages_ne_zero ops _ _
    (Rep.new oddPages_ne_zero).1 (Rep.new oddPages_ne_zero).2 fun op hop => (hops op hop).1
  exact ⟨t, heq, reached_oddPages hops heq⟩

/-! ## `Remove` returns, and what it does then -/

/-- **When `Remove` returns.** On every tree that is reached and for every key: exactly if
the leaf for the key is the last one, has no more than the least number of entries of a page
other than the root, or holds the key. -/
theorem remove_returns_iff (alloc : ℕ → Addr) (halloc : Function.Injective alloc)
    (hnull : ∀ i, alloc i ≠ 0) {t : Tree} (ht : Reached alloc t) (k : ℕ) :
    ∃ a p n, t.descend k (fun p => p.leftmostPtr = 0) t.height t.root = some a ∧
      t.heap a = some p ∧ p.count = some n ∧
      ((∃ rounds t', t.remove alloc rounds k = some t') ↔
        p.siblingPtr = 0 ∨ n ≤ minEntries ∨ ∃ i < n, p.key i = k) := by
  obtain ⟨S, h⟩ := ht.steady halloc hnull
  obtain ⟨lo, a, p, n, hleaf, hdescend⟩ := h.leafOf k
  obtain ⟨t₁, S₁, found, hround, -, -, hfound⟩ := h.removeRound halloc hnull hleaf
  refine ⟨a, p, n, hdescend, hleaf.heap, Page.count_sound hleaf.node.sound, ?_,
    fun hcond => ⟨1, t₁, ?_⟩⟩
  · rintro ⟨rounds, t', heq⟩
    by_contra hcond
    push Not at hcond
    obtain ⟨hsib, hn, habsent⟩ := hcond
    have hstuck : Stuck t S k := ⟨lo, a, p, n, hleaf, hsib, hn, habsent⟩
    exact absurd ((Steady.remove_of_stuck rounds t h hstuck).symm.trans heq) (by simp)
  · have htrue : found = true := by
      by_contra hfalse
      obtain ⟨hsib, hn, habsent⟩ := hfound (by simpa using hfalse)
      rcases hcond with h0 | hle | ⟨i, hi, hkey⟩
      · exact hsib h0
      · omega
      · exact habsent i hi hkey
    rw [Tree.remove, hround, Option.bind_some, if_pos htrue]

/-- A key of a leaf with the least number of entries. -/
theorem remove_returns_iff_thirty :
    ∃ t, (Tree.new oddPages).insertAll oddPages ((List.range 30).map fun i => (i, 2 * i + 2)) =
        some t ∧
      ∃ a p n, t.descend 3 (fun p => p.leftmostPtr = 0) t.height t.root = some a ∧
        t.heap a = some p ∧ p.count = some n ∧
        ((∃ rounds t', t.remove oddPages rounds 3 = some t') ↔
          p.siblingPtr = 0 ∨ n ≤ minEntries ∨ ∃ i < n, p.key i = 3) := by
  obtain ⟨t, heq, ht⟩ :=
    exists_reached_oddPages ((List.range 30).map fun i => (i, 2 * i + 2)) (by decide)
  exact ⟨t, heq, remove_returns_iff oddPages oddPages_injective oddPages_ne_zero ht 3⟩

/-- **A call that does not return**: the leaf for the key 3 has 15 entries and a sibling, and
every round turns the direction of the leaf and starts again. -/
theorem remove_absent_never_returns :
    ∃ t, (Tree.new oddPages).insertAll oddPages
        (((List.range 30).map fun i => (2 * i, 2 * i + 2)) ++ [(1, 100)]) = some t ∧
      t.search 3 = some 0 ∧
      (∀ u, Retries oddPages 3 t u → ∃ u', u.removeRound oddPages 3 = some (u', false)) ∧
      ∀ rounds, t.remove oddPages rounds 3 = none := by
  have hrun : ((Tree.new oddPages).insertAll oddPages
      (((List.range 30).map fun i => (2 * i, 2 * i + 2)) ++ [(1, 100)])).map (fun t =>
        (t.search 3, t.descend 3 (fun p => p.leftmostPtr = 0) t.height t.root)) =
      some (some 0, some 1) := by
    decide +kernel
  have hleaf : ((Tree.new oddPages).insertAll oddPages
      (((List.range 30).map fun i => (2 * i, 2 * i + 2)) ++ [(1, 100)])).bind (fun t =>
        (t.heap 1).map fun p =>
          (p.siblingPtr, p.count, (List.range 15).all fun i => p.key i ≠ 3)) =
      some (3, some 15, true) := by
    decide +kernel
  obtain ⟨t, heq, hres⟩ := Option.map_eq_some_iff.mp hrun
  obtain ⟨hsearch, hdescend⟩ := Prod.mk.inj hres
  rw [heq, Option.bind_some] at hleaf
  obtain ⟨p, hheap, hfields⟩ := Option.map_eq_some_iff.mp hleaf
  obtain ⟨hsib, hfields⟩ := Prod.mk.inj hfields
  obtain ⟨hcount, habsent⟩ := Prod.mk.inj hfields
  obtain ⟨S, h⟩ := (reached_oddPages (by decide) heq).steady oddPages_injective oddPages_ne_zero
  obtain ⟨lo, a, _, _, hleaf', hdescend'⟩ := h.leafOf 3
  obtain rfl : a = 1 := Option.some.inj (hdescend'.symm.trans hdescend)
  have hstuck : Stuck t S 3 := by
    refine ⟨lo, 1, p, 15, ⟨hleaf'.addr, hleaf'.covers, hheap,
      h.rep.node_of_count hleaf'.addr hheap hcount⟩, ?_, by decide, fun i hi => ?_⟩
    · rw [hsib]
      decide
    · simpa using List.all_eq_true.mp habsent i (List.mem_range.mpr hi)
  refine ⟨t, heq, hsearch, fun u hu => ?_, fun rounds => Steady.remove_of_stuck rounds t h hstuck⟩
  obtain ⟨hu, hstuck'⟩ := h.retries_of_stuck hstuck hu
  obtain ⟨u', hround, -⟩ := hu.round_of_stuck hstuck'
  exact ⟨u', hround⟩

/-- **`Remove` deletes its key and no other.** On every tree that is reached and whose values
are pairwise distinct, every round of a call runs through, and when the call returns, `Search`
does not find the key and finds every other key as before. -/
theorem search_remove (alloc : ℕ → Addr) (halloc : Function.Injective alloc)
    (hnull : ∀ i, alloc i ≠ 0) {t : Tree} (ht : Reached alloc t)
    (hdistinct : ∀ x x' y, t.Stores x y → t.Stores x' y → x = x') (k : ℕ) :
    (∀ u, Retries alloc k t u → ∃ u' found, u.removeRound alloc k = some (u', found)) ∧
      ∀ rounds t', t.remove alloc rounds k = some t' →
        t'.search k = some 0 ∧
          ∀ k', k' ≠ k → ∃ r, t.search k' = some r ∧ t'.search k' = some r := by
  obtain ⟨S, h⟩ := ht.steady halloc hnull
  have hS : S.Distinct := fun x x' y hx hx' =>
    hdistinct x x' y ((h.stores_iff x y).mpr hx) ((h.stores_iff x' y).mpr hx')
  constructor
  · intro u hu
    obtain ⟨S₁, h₁⟩ := h.of_retries halloc hnull hu
    obtain ⟨_, _, _, _, hleaf, -⟩ := h₁.leafOf k
    obtain ⟨u', -, found, hround, -⟩ := h₁.removeRound halloc hnull hleaf
    exact ⟨u', found, hround⟩
  · intro rounds t' heq
    obtain ⟨S', h', hremoved⟩ := Steady.remove halloc hnull k rounds t S t' h heq
    have hmap := hremoved.map hS
    have hS' := hremoved.distinct hS
    refine ⟨?_, fun k' hne => ⟨_, h.search hS k', ?_⟩⟩
    · rw [h'.search hS', hmap, Function.update_self]
      rfl
    · rw [h'.search hS', hmap, Function.update_of_ne hne]

/-- The leaf of the key has the least number of entries, and is merged with its sibling. -/
theorem search_remove_thirty :
    ∃ t t', (Tree.new oddPages).insertAll oddPages ((List.range 30).map fun i => (i, 2 * i + 2)) =
        some t ∧
      t.remove oddPages 1 3 = some t' ∧ t'.search 3 = some 0 ∧
      ∀ k', k' ≠ 3 → ∃ r, t.search k' = some r ∧ t'.search k' = some r := by
  have hrun : (((Tree.new oddPages).insertAll oddPages
      ((List.range 30).map fun i => (i, 2 * i + 2))).bind fun t => t.remove oddPages 1 3).isSome =
      true := by
    decide +kernel
  obtain ⟨t', hres⟩ := Option.isSome_iff_exists.mp hrun
  obtain ⟨t, heq, hremove⟩ := Option.bind_eq_some_iff.mp hres
  obtain ⟨t₁, S, heq', hrep, htop, hmap⟩ := Rep.insertAll oddPages_injective oddPages_ne_zero
    ((List.range 30).map fun i => (i, 2 * i + 2)) _ _ (Rep.new oddPages_ne_zero).1
    (Rep.new oddPages_ne_zero).2 (by decide)
  obtain rfl : t₁ = t := Option.some.inj (heq'.symm.trans heq)
  have hread : ∀ x (y : ℕ), S.map x = some y → y = 2 * x + 2 := fun x y hy => by
    rw [hmap] at hy
    have hy' := (mapOf_range (fun i => 2 * i + 2) 30 x).symm.trans hy
    split_ifs at hy'
    exact (Option.some.inj hy').symm
  have h : Steady oddPages t₁ S := ⟨hrep.loosen, htop, fun x (y : ℕ) hy => oddPages_ne_even (by
    have := hread x y hy
    omega)⟩
  have hsearch := search_remove oddPages oddPages_injective oddPages_ne_zero
    (reached_oddPages (by decide) heq) (fun x x' y hx hx' => by
      have hy := hread x y ((h.stores_iff x y).mp hx)
      have hy' := hread x' y ((h.stores_iff x' y).mp hx')
      omega) 3
  exact ⟨t₁, t', heq, hremove, hsearch.2 1 t' hremove⟩

end McfKv.Btree
