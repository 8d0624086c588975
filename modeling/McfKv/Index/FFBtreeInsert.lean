import McfKv.Index.FFBtree

/-!
# Insertion into the FAST and FAIR tree (`multi-cuckoo-index/ff_btreee.cc`)

`store` changes the tree in three ways, and each of them is a change of the shape:

* the entry fits in its page — `Rep.insertHere`;
* the page is split — `Rep.splitHere`, after which the level above lacks the new page;
* the root was split — `Rep.growRoot`.

`Lacks` says what a level lacks: a new entry of the map on level `0`, and a pending page
above. `Rep.store_here` is the one theorem about `store`, used for leaves by `Insert` and
for internal pages by `InsertInternal`, and `insertInternal_settles` follows by induction
on the distance to the top.

All of this holds of trees with removals, too; a page may then turn its direction.

`search_insertAll` is the result: after any sequence of insertions `Search` reads the map.
-/

namespace McfKv.Btree

open Fence

/-! ## One page changes -/

namespace Shape

variable {S : Shape} {σ σ' : Slack} {l lo k s : ℕ} {q b : Addr} {m : ℕ → Option Addr}

/-- The shape with another map. -/
def withMap (S : Shape) (m : ℕ → Option Addr) : Shape := { S with map := m }

/-- The entry at `k` on level `l` is the only one that changes, and the page at `lo` the only
one whose size does. -/
structure Alters (S : Shape) (σ : Slack) (m : ℕ → Option Addr) (σ' : Slack) (l lo k : ℕ) :
    Prop where
  contents : ∀ l' x, (l', x) ≠ (l, k) → (S.withMap m).contents l' x = S.contents l' x
  pend : ∀ l' x, (l', x) ≠ (l, k) → (σ'.pend l' x ↔ σ.pend l' x)
  size : ∀ l' x, (l', x) ≠ (l, lo) → σ'.size l' x = σ.size l' x
  removals : σ.removals → σ'.removals

theorem withMap_inner {l' : ℕ} (hl : l' ≠ 0) (x : ℕ) :
    (S.withMap m).contents l' x = S.contents l' x := by
  obtain ⟨l', rfl⟩ := Nat.exists_eq_succ_of_ne_zero hl
  rfl

theorem Alters.node_other (h : S.Alters σ m σ' l lo k) (hk : Covers (S.fences l) k lo)
    {l' lo' : ℕ} (hne : (l', lo') ≠ (l, lo)) {p : Page} {n : ℕ} (hp : S.NodeOk σ l' lo' p n) :
    (S.withMap m).NodeOk σ' l' lo' p n := by
  refine { hp with
    forward := fun hr => hp.forward fun hr' => hr (h.removals hr')
    inner := fun hl => (withMap_inner hl lo').trans (hp.inner hl)
    full := fun hs hnone => hp.full hs ((h.size l' lo' hne).symm.trans hnone)
    size := fun c hc => hp.size c ((h.size l' lo' hne).symm.trans hc)
    has := fun x y => (hp.has x y).trans ?_ }
  unfold Entry
  change _ ↔ _ ∧ Covers (S.fences l') x lo' ∧ _ ∧ _
  by_cases hx : (l', x) = (l, k)
  · obtain ⟨rfl, rfl⟩ := Prod.mk.inj hx
    have hnot : ¬Covers (S.fences l') x lo' := fun hc => hne (by rw [hc.unique hk])
    exact ⟨fun hc => absurd hc.2.1 hnot, fun hc => absurd hc.2.1 hnot⟩
  · rw [h.contents l' x hx, h.pend l' x hx]

end Shape

theorem Tree.put_heap_self (t : Tree) (a : Addr) (p : Page) : (t.put a p).heap a = some p :=
  Function.update_self ..

theorem Tree.put_heap_of_ne (t : Tree) {a a' : Addr} (h : a' ≠ a) (p : Page) :
    (t.put a p).heap a' = t.heap a' :=
  Function.update_of_ne h ..

section Replace

variable {alloc : ℕ → Addr} {t : Tree} {S : Shape} {σ σ' : Slack} {l lo k : ℕ} {a : Addr}
  {m : ℕ → Option Addr}

theorem Rep.addr_ne (h : Rep alloc t S σ) (ha : S.addr l lo = some a) {l' lo' : ℕ} {a' : Addr}
    (ha' : S.addr l' lo' = some a') (hne : (l', lo') ≠ (l, lo)) : a' ≠ a := by
  rintro rfl
  obtain ⟨rfl, rfl⟩ := h.ok.inj _ _ _ _ _ ha' ha
  exact hne rfl

/-- **One page is written.** -/
theorem Rep.replace (h : Rep alloc t S σ) (halters : S.Alters σ m σ' l lo k)
    (hpend : ∀ l' x, σ'.pend l' x → ∃ l'', l' = l'' + 1 ∧ x ∈ S.fences l'' ∧ x ∉ S.fences l')
    (ha : S.addr l lo = some a) (hk : Covers (S.fences l) k lo) {p : Page} {n : ℕ}
    (hp : (S.withMap m).NodeOk σ' l lo p n) : Rep alloc (t.put a p) (S.withMap m) σ' where
  ok := ⟨h.ok.zero, h.ok.above, h.ok.nested, h.ok.inj, h.ok.nonnull, hpend⟩
  root := h.root
  height_le := h.height_le
  height hr := h.height fun hr' => hr (halters.removals hr')
  page l' lo' a' ha' := by
    by_cases hne : (l', lo') = (l, lo)
    · obtain ⟨rfl, rfl⟩ := Prod.mk.inj hne
      obtain rfl : a' = a := Option.some.inj (ha'.symm.trans ha)
      exact ⟨p, n, t.put_heap_self a' p, hp⟩
    · obtain ⟨p', n', hheap, hp'⟩ := h.page l' lo' a' ha'
      exact ⟨p', n', (t.put_heap_of_ne (h.addr_ne ha ha' hne) p).trans hheap,
        halters.node_other hk hne hp'⟩
  used := h.used

theorem Rep.fresh (h : Rep alloc t S σ) (halloc : Function.Injective alloc) {i : ℕ}
    (hi : t.next ≤ i) (l x : ℕ) : S.addr l x ≠ some (alloc i) := by
  intro hx
  obtain ⟨j, hj, heq⟩ := h.used _ _ _ hx
  exact absurd (halloc heq) (by omega)

end Replace

/-! ## A new fence -/

namespace Shape

variable {S : Shape} {σ : Slack} {l lo s : ℕ} {b : Addr}

/-- A new page at fence `s` of a level. -/
def cut (S : Shape) (l s : ℕ) (b : Addr) : Shape :=
  { S with addr := fun l' x => if l' = l ∧ x = s then some b else S.addr l' x }

theorem cut_addr_self : (S.cut l s b).addr l s = some b := if_pos ⟨rfl, rfl⟩

theorem cut_addr_of_ne {l' x : ℕ} (h : (l', x) ≠ (l, s)) : (S.cut l s b).addr l' x = S.addr l' x :=
  if_neg fun hc => h (by rw [hc.1, hc.2])

theorem cut_addr_level {l' : ℕ} (h : l' ≠ l) : (S.cut l s b).addr l' = S.addr l' := by
  funext x
  exact cut_addr_of_ne fun hc => h (congrArg Prod.fst hc)

theorem cut_fences_self : (S.cut l s b).fences l = insert s (S.fences l) := by
  ext x
  simp only [fences, Set.mem_ofPred_eq, Set.mem_insert_iff]
  by_cases hx : x = s
  · subst hx
    simp [cut_addr_self]
  · rw [cut_addr_of_ne fun hc => hx (congrArg Prod.snd hc)]
    simp [hx]

theorem cut_fences_of_ne {l' : ℕ} (h : l' ≠ l) : (S.cut l s b).fences l' = S.fences l' :=
  fences_congr (cut_addr_level h)

theorem cut_contents_of_ne {l' x : ℕ} (h : (l', x) ≠ (l + 1, s)) :
    (S.cut l s b).contents l' x = S.contents l' x := by
  cases l' with
  | zero => rfl
  | succ l' => exact cut_addr_of_ne fun hc => h (by rw [(Prod.mk.inj hc).1, (Prod.mk.inj hc).2])

/-- The place of a new fence: inside the interval of `lo`, and a fence of the level below. -/
structure CutAt (S : Shape) (l lo s : ℕ) : Prop where
  mem : lo ∈ S.fences l
  lt : lo < s
  before : ∀ y ∈ S.fences l, lo < y → s < y
  below : ∀ l', l = l' + 1 → s ∈ S.fences l'

theorem CutAt.notMem (h : S.CutAt l lo s) : s ∉ S.fences l := fun hs =>
  lt_irrefl s (h.before s hs h.lt)

section Other

variable {l' lo' : ℕ}

section

variable (h : S.CutAt l lo s)

include h

theorem CutAt.covers_other (hlo' : lo' ∈ S.fences l') (hne : (l', lo') ≠ (l, lo)) (x : ℕ) :
    Covers ((S.cut l s b).fences l') x lo' ↔ Covers (S.fences l') x lo' := by
  by_cases hl : l' = l
  · subst hl
    rw [cut_fences_self]
    exact covers_insert_other h.mem h.lt h.before hlo' fun heq => hne (by rw [heq])
  · rw [cut_fences_of_ne hl]

theorem CutAt.isSibling_other (hlo' : lo' ∈ S.fences l') (hne : (l', lo') ≠ (l, lo)) (a : Addr) :
    (S.cut l s b).IsSibling l' lo' a ↔ S.IsSibling l' lo' a := by
  by_cases hl : l' = l
  · subst hl
    have hlo : lo' ≠ lo := fun heq => hne (by rw [heq])
    unfold IsSibling
    rw [cut_fences_self, isLast_insert_other h.mem h.before hlo' hlo]
    refine or_congr_right (exists_congr fun y => ?_)
    rw [isNext_insert_other h.mem h.lt h.before hlo' hlo]
    refine and_congr_right fun hnext => ?_
    have hys : y ≠ s := fun heq => h.notMem (heq ▸ hnext.1)
    rw [cut_addr_of_ne fun hc => hys (Prod.mk.inj hc).2]
  · unfold IsSibling
    rw [cut_fences_of_ne hl, cut_addr_level hl]

theorem CutAt.shared_other (hne : (l', lo') ≠ (l, lo)) :
    (S.cut l s b).Shared l' lo' ↔ S.Shared l' lo' := by
  by_cases hl : l' = l
  · subst hl
    have hlo : lo ≠ lo' := fun heq => hne (by rw [heq])
    refine iff_of_true ⟨lo, ?_, hlo⟩ ⟨lo, h.mem, hlo⟩
    rw [cut_fences_self]
    exact Set.mem_insert_of_mem s h.mem
  · unfold Shared
    rw [cut_fences_of_ne hl]

theorem CutAt.entry_other (hlo' : lo' ∈ S.fences l') (hne : (l', lo') ≠ (l, lo)) (x : ℕ)
    (y : Addr) : (S.cut l s b).Entry (σ.lacking (l + 1) s) l' lo' x y ↔ S.Entry σ l' lo' x y := by
  unfold Entry
  rw [h.covers_other hlo' hne]
  by_cases hx : (l', x) = (l + 1, s)
  · -- the level above does not see the new page yet
    obtain ⟨rfl, rfl⟩ := Prod.mk.inj hx
    have hnone : S.contents (l + 1) x ≠ some y := fun hy => h.notMem ⟨y, hy⟩
    exact ⟨fun hc => absurd Slack.lacking_pend_self hc.2.2.2, fun hc => absurd hc.1 hnone⟩
  · rw [cut_contents_of_ne hx, Slack.lacking_pend_of_ne hx]

theorem CutAt.node_other (hnested : S.fences (l + 1) ⊆ S.fences l) (hlo' : lo' ∈ S.fences l')
    (hne : (l', lo') ≠ (l, lo)) {p : Page} {n : ℕ} :
    (S.cut l s b).NodeOk (σ.lacking (l + 1) s) l' lo' p n ↔ S.NodeOk σ l' lo' p n := by
  have hcontents : (S.cut l s b).contents l' lo' = S.contents l' lo' := by
    refine cut_contents_of_ne fun heq => ?_
    obtain ⟨rfl, rfl⟩ := Prod.mk.inj heq
    exact h.notMem (hnested hlo')
  constructor
  · intro hp
    exact { hp with
      inner := fun hl => hcontents.symm.trans (hp.inner hl)
      sibling := (h.isSibling_other hlo' hne _).mp hp.sibling
      has := fun x y => (hp.has x y).trans (h.entry_other hlo' hne x y)
      full := fun hs => hp.full ((h.shared_other hne).mpr hs) }
  · intro hp
    exact { hp with
      inner := fun hl => hcontents.trans (hp.inner hl)
      sibling := (h.isSibling_other hlo' hne _).mpr hp.sibling
      has := fun x y => (hp.has x y).trans (h.entry_other hlo' hne x y).symm
      full := fun hs => hp.full ((h.shared_other hne).mp hs) }

end

end Other

theorem CutAt.entry_left (h : S.CutAt l lo s) (x : ℕ) (y : Addr) :
    (S.cut l s b).Entry (σ.lacking (l + 1) s) l lo x y ↔ S.Entry σ l lo x y ∧ x < s := by
  have hlevel : ∀ z, (l, z) ≠ (l + 1, s) := fun z hc => absurd (congrArg Prod.fst hc) (by simp)
  unfold Entry
  rw [cut_fences_self, covers_insert_left h.mem h.lt h.before, cut_contents_of_ne (hlevel x),
    Slack.lacking_pend_of_ne (hlevel x)]
  constructor
  · rintro ⟨hy, ⟨hc, hlt⟩, hne, hpend⟩
    exact ⟨⟨hy, hc, hne, hpend⟩, hlt⟩
  · rintro ⟨⟨hy, hc, hne, hpend⟩, hlt⟩
    exact ⟨hy, ⟨hc, hlt⟩, hne, hpend⟩

theorem CutAt.entry_right (h : S.CutAt l lo s) (x : ℕ) (y : Addr) :
    (S.cut l s b).Entry (σ.lacking (l + 1) s) l s x y ↔
      S.Entry σ l lo x y ∧ s ≤ x ∧ (l ≠ 0 → x ≠ s) := by
  have hlevel : ∀ z, (l, z) ≠ (l + 1, s) := fun z hc => absurd (congrArg Prod.fst hc) (by simp)
  unfold Entry
  rw [cut_fences_self, covers_insert_right h.mem h.lt h.before, cut_contents_of_ne (hlevel x),
    Slack.lacking_pend_of_ne (hlevel x)]
  constructor
  · rintro ⟨hy, ⟨hc, hle⟩, hne, hpend⟩
    exact ⟨⟨hy, hc, fun _ => (h.lt.trans_le hle).ne', hpend⟩, hle, hne⟩
  · rintro ⟨⟨hy, hc, -, hpend⟩, hle, hne⟩
    exact ⟨hy, ⟨hc, hle⟩, hne, hpend⟩

theorem CutAt.ok (h : S.CutAt l lo s) (hok : S.Ok σ) (hfree : ¬ σ.pend l s) (hnull : b ≠ 0)
    (hfresh : ∀ l' x, S.addr l' x ≠ some b) : (S.cut l s b).Ok (σ.lacking (l + 1) s) where
  zero l' hl' := by
    obtain ⟨a, ha⟩ := hok.zero l' hl'
    refine ⟨a, ?_⟩
    rw [cut_addr_of_ne, ha]
    intro heq
    obtain ⟨rfl, rfl⟩ := Prod.mk.inj heq
    exact h.notMem ⟨a, ha⟩
  above l' x hx := by
    by_cases hl : l' = l
    · subst hl
      exact hok.above _ _ h.mem
    · rw [cut_fences_of_ne hl] at hx
      exact hok.above l' x hx
  nested l' x hx := by
    by_cases hl : l' + 1 = l
    · rw [cut_fences_of_ne (by omega : l' ≠ l)]
      rw [hl, cut_fences_self] at hx
      rcases hx with rfl | hx
      · exact h.below l' hl.symm
      · exact hok.nested l' (hl ▸ hx)
    · rw [cut_fences_of_ne hl] at hx
      by_cases hl' : l' = l
      · rw [hl', cut_fences_self]
        exact Set.mem_insert_of_mem _ (hok.nested l (hl' ▸ hx))
      · rw [cut_fences_of_ne hl']
        exact hok.nested l' hx
  inj l₁ x₁ l₂ x₂ a h₁ h₂ := by
    by_cases e₁ : (l₁, x₁) = (l, s) <;> by_cases e₂ : (l₂, x₂) = (l, s)
    · exact Prod.mk.inj (e₁.trans e₂.symm)
    · obtain ⟨rfl, rfl⟩ := Prod.mk.inj e₁
      rw [cut_addr_self] at h₁
      rw [cut_addr_of_ne e₂, ← h₁] at h₂
      exact absurd h₂ (hfresh _ _)
    · obtain ⟨rfl, rfl⟩ := Prod.mk.inj e₂
      rw [cut_addr_self] at h₂
      rw [cut_addr_of_ne e₁, ← h₂] at h₁
      exact absurd h₁ (hfresh _ _)
    · rw [cut_addr_of_ne e₁] at h₁
      rw [cut_addr_of_ne e₂] at h₂
      exact hok.inj _ _ _ _ _ h₁ h₂
  nonnull l' x a ha := by
    by_cases e : (l', x) = (l, s)
    · obtain ⟨rfl, rfl⟩ := Prod.mk.inj e
      rw [cut_addr_self] at ha
      exact Option.some.inj ha ▸ hnull
    · rw [cut_addr_of_ne e] at ha
      exact hok.nonnull l' x a ha
  pending l' x hx := by
    rcases hx with ⟨rfl, rfl⟩ | hx
    · refine ⟨l, rfl, ⟨b, cut_addr_self⟩, ?_⟩
      rw [cut_fences_of_ne (by omega)]
      exact fun hmem => h.notMem (hok.nested l hmem)
    · obtain ⟨l'', rfl, hmem, hnot⟩ := hok.pending l' x hx
      refine ⟨l'', rfl, ?_, ?_⟩
      · by_cases hl : l'' = l
        · rw [hl, cut_fences_self]
          exact Set.mem_insert_of_mem s (hl ▸ hmem)
        · rwa [cut_fences_of_ne hl]
      · by_cases hl : l'' + 1 = l
        · rw [hl, cut_fences_self]
          rintro (rfl | hmem')
          · exact hfree (hl ▸ hx)
          · exact hnot (hl ▸ hmem')
        · rwa [cut_fences_of_ne hl]

/-- The entries of the page at `lo`, divided at `s` between two pages. -/
structure Halves (S : Shape) (σ : Slack) (l lo s : ℕ) (b : Addr) (left right : Page)
    (nl nr : ℕ) : Prop where
  left_full : minEntries ≤ nl
  left_sound : left.Sound nl
  left_forward : ¬ σ.removals → left.isForward = true
  left_level : left.level = l
  left_leaf : l = 0 → left.leftmostPtr = 0
  left_inner : l ≠ 0 → S.contents l lo = some left.leftmostPtr
  left_sibling : left.siblingPtr = b
  left_has : ∀ x y, left.Has nl x y ↔ S.Entry σ l lo x y ∧ x < s
  right_full : minEntries ≤ nr
  right_sound : right.Sound nr
  right_forward : ¬ σ.removals → right.isForward = true
  right_level : right.level = l
  right_leaf : l = 0 → right.leftmostPtr = 0
  right_inner : l ≠ 0 → S.contents l s = some right.leftmostPtr
  right_sibling : S.IsSibling l lo right.siblingPtr
  right_has : ∀ x y, right.Has nr x y ↔ S.Entry σ l lo x y ∧ s ≤ x ∧ (l ≠ 0 → x ≠ s)

theorem IsSibling.cut_right (h : S.CutAt l lo s) {a : Addr} (ha : S.IsSibling l lo a) :
    (S.cut l s b).IsSibling l s a := by
  unfold IsSibling
  rw [cut_fences_self]
  rcases ha with ⟨hlast, h0⟩ | ⟨y, hnext, hy⟩
  · exact Or.inl ⟨isLast_insert_new h.lt hlast, h0⟩
  · have hys : y ≠ s := fun heq => h.notMem (heq ▸ hnext.1)
    refine Or.inr ⟨y, isNext_insert_new h.lt h.before hnext, ?_⟩
    rw [cut_addr_of_ne fun hc => hys (Prod.mk.inj hc).2]
    exact hy

theorem Halves.nodes {left right : Page} {nl nr : ℕ} (h : S.Halves σ l lo s b left right nl nr)
    (hcut : S.CutAt l lo s) (hfull : ∀ x, σ.size l x = none) :
    (S.cut l s b).NodeOk (σ.lacking (l + 1) s) l lo left nl ∧
      (S.cut l s b).NodeOk (σ.lacking (l + 1) s) l s right nr := by
  have hlevel : ∀ z, (l, z) ≠ (l + 1, s) := fun z hc => absurd (congrArg Prod.fst hc) (by simp)
  have hsize : ∀ x c, (σ.lacking (l + 1) s).size l x ≠ some c := fun x c hc => by
    exact absurd ((hfull x).symm.trans hc) (by simp)
  have hpos : 0 < minEntries := by decide
  constructor
  · refine ⟨h.left_sound, h.left_forward, h.left_level,
      fun _ => hpos.trans_le h.left_full, fun h0 => absurd h.left_full (by omega), h.left_leaf,
      fun hl => (cut_contents_of_ne (hlevel lo)).trans (h.left_inner hl),
      Or.inr ⟨s, ?_, by rw [cut_addr_self, h.left_sibling]⟩, fun x y => ?_,
      fun _ _ => h.left_full, fun c hc => absurd hc (hsize lo c)⟩
    · rw [cut_fences_self]
      exact isNext_insert_self hcut.lt hcut.before
    · rw [h.left_has, hcut.entry_left]
  · refine ⟨h.right_sound, h.right_forward, h.right_level,
      fun _ => hpos.trans_le h.right_full, fun h0 => absurd h.right_full (by omega), h.right_leaf,
      fun hl => (cut_contents_of_ne (hlevel s)).trans (h.right_inner hl),
      h.right_sibling.cut_right hcut, fun x y => ?_, fun _ _ => h.right_full,
      fun c hc => absurd hc (hsize s c)⟩
    rw [h.right_has, hcut.entry_right]

end Shape

section Cut

variable {alloc : ℕ → Addr} {t t' : Tree} {S : Shape} {σ : Slack} {l lo s : ℕ} {a b : Addr}

/-- **A tree with a new page**, which the level above lacks. `t` is the tree that the other
pages are from. -/
theorem rep_cut {left right : Page} {nl nr : ℕ} (hok : S.Ok σ) (hfull : ∀ x, σ.size l x = none)
    (hfree : ¬ σ.pend l s) (hcut : S.CutAt l lo s) (ha : S.addr l lo = some a) (hnull : b ≠ 0)
    (hfresh : ∀ l' x, S.addr l' x ≠ some b) (hhalves : S.Halves σ l lo s b left right nl nr)
    (hroot : S.addr S.top 0 = some t'.root) (hheight_le : S.top + 1 ≤ t'.height)
    (hheight : ¬ σ.removals → t'.height = S.top + 1)
    (hheap : t'.heap = ((t.put b right).put a left).heap)
    (hother : ∀ l' lo' a', S.addr l' lo' = some a' → (l', lo') ≠ (l, lo) →
      ∃ p n, t.heap a' = some p ∧ S.NodeOk σ l' lo' p n)
    (hused : ∀ l' lo' a', S.addr l' lo' = some a' → ∃ i < t'.next, alloc i = a')
    (hb : ∃ i < t'.next, alloc i = b) : Rep alloc t' (S.cut l s b) (σ.lacking (l + 1) s) := by
  obtain ⟨hleft, hright⟩ := hhalves.nodes hcut hfull
  have hba : b ≠ a := fun heq => hfresh l lo (heq ▸ ha)
  refine ⟨hcut.ok hok hfree hnull hfresh, ?_, hheight_le, hheight,
    fun l' lo' a' ha' => ?_, fun l' lo' a' ha' => ?_⟩
  · rw [Shape.cut_addr_of_ne]
    · exact hroot
    · intro heq
      obtain ⟨htop, h0⟩ := Prod.mk.inj heq
      exact absurd hcut.lt (by omega)
  · rw [hheap]
    by_cases e : (l', lo') = (l, s)
    · obtain ⟨rfl, rfl⟩ := Prod.mk.inj e
      rw [Shape.cut_addr_self] at ha'
      obtain rfl := Option.some.inj ha'
      exact ⟨right, nr, (Tree.put_heap_of_ne _ hba _).trans (Tree.put_heap_self ..), hright⟩
    · rw [Shape.cut_addr_of_ne e] at ha'
      by_cases e' : (l', lo') = (l, lo)
      · obtain ⟨rfl, rfl⟩ := Prod.mk.inj e'
        obtain rfl : a' = a := Option.some.inj (ha'.symm.trans ha)
        exact ⟨left, nl, Tree.put_heap_self .., hleft⟩
      · obtain ⟨p', n', hheap', hp'⟩ := hother l' lo' a' ha' e'
        have hb' : a' ≠ b := fun heq => hfresh l' lo' (heq ▸ ha')
        have haa : a' ≠ a := fun heq => e' (by
          obtain ⟨rfl, rfl⟩ := hok.inj _ _ _ _ _ ha' (heq ▸ ha)
          rfl)
        refine ⟨p', n', ?_, (hcut.node_other (hok.nested l) ⟨a', ha'⟩ e').mpr hp'⟩
        exact (Tree.put_heap_of_ne _ haa _).trans ((Tree.put_heap_of_ne _ hb' _).trans hheap')
  · by_cases e : (l', lo') = (l, s)
    · obtain ⟨rfl, rfl⟩ := Prod.mk.inj e
      rw [Shape.cut_addr_self] at ha'
      rwa [← Option.some.inj ha']
    · rw [Shape.cut_addr_of_ne e] at ha'
      exact hused l' lo' a' ha'

end Cut

/-! ## Storing an entry -/

namespace Shape

variable {S : Shape} {σ σ' : Slack} {l lo k : ℕ} {q : Addr} {m : ℕ → Option Addr}

/-- The entry `(k, q)` is the one thing that level `l` lacks: on level `0` it is new in the
map, above it is missing for a page of the level below. `σ'` is what is missing when it has
been stored. -/
structure Lacks (S : Shape) (σ σ' : Slack) (l k : ℕ) (q : Addr) (m : ℕ → Option Addr) :
    Prop where
  here : (S.withMap m).contents l k = some q
  other : ∀ l' x, (l', x) ≠ (l, k) → (S.withMap m).contents l' x = S.contents l' x
  pend : ∀ l' x, σ.pend l' x ↔ (l ≠ 0 ∧ l' = l ∧ x = k) ∨ σ'.pend l' x
  size : σ'.size = σ.size
  removals : σ.removals ↔ σ'.removals
  complete : σ'.Complete l

theorem lacks_leaf (S : Shape) (hcomplete : σ.Complete 0) (k : ℕ) (q : Addr) :
    S.Lacks σ σ 0 k q (Function.update S.map k (some q)) where
  here := Function.update_self ..
  other l' x hne := by
    cases l' with
    | zero => exact Function.update_of_ne (fun hx => hne (by rw [hx])) ..
    | succ l' => rfl
  pend l' x := by simp
  size := rfl
  removals := Iff.rfl
  complete := hcomplete

theorem lacks_inner (h : S.addr l k = some q) (hcomplete : σ.Complete (l + 1)) :
    S.Lacks (σ.lacking (l + 1) k) σ (l + 1) k q S.map where
  here := h
  other _ _ _ := rfl
  pend l' x := by simp [Slack.lacking]
  size := rfl
  removals := Iff.rfl
  complete := hcomplete

section

variable (h : S.Lacks σ σ' l k q m)

include h

theorem Lacks.pend_iff (x : ℕ) : σ.pend l x ↔ l ≠ 0 ∧ x = k := by
  rw [h.pend, or_iff_left (h.complete l le_rfl x).1]
  simp

theorem Lacks.pending (hok : S.Ok σ) (l' x : ℕ) (hx : σ'.pend l' x) :
    ∃ l'', l' = l'' + 1 ∧ x ∈ S.fences l'' ∧ x ∉ S.fences l' :=
  hok.pending l' x ((h.pend l' x).mpr (Or.inr hx))

theorem Lacks.alters (lo : ℕ) : S.Alters σ m σ' l lo k where
  contents := h.other
  pend l' x hne := by
    rw [h.pend, or_iff_right fun hc => hne (by rw [hc.2.1, hc.2.2])]
  size l' x _ := by rw [h.size]
  removals := h.removals.mp

theorem Lacks.notMem (hok : S.Ok σ) (hl : l ≠ 0) : k ∉ S.fences l := by
  obtain ⟨l', rfl, -, hk⟩ := hok.pending l k ((h.pend_iff k).mpr ⟨hl, rfl⟩)
  exact hk

theorem Lacks.stored (hok : S.Ok σ) (hk : Covers (S.fences l) k lo) {p : Page} {n : ℕ}
    (hp : S.NodeOk σ l lo p n) (x : ℕ) (y : Addr) :
    p.Stored n k q x y ↔ (S.withMap m).Entry σ' l lo x y := by
  have hcomplete : ∀ x, ¬ σ'.pend l x := fun x => (h.complete l le_rfl x).1
  unfold Page.Stored
  by_cases hx : x = k
  · subst hx
    have hlo : l ≠ 0 → x ≠ lo := fun hl hxlo => h.notMem hok hl (hxlo ▸ hk.1)
    constructor
    · rintro (⟨-, rfl⟩ | ⟨hne, -⟩)
      · exact ⟨h.here, hk, hlo, hcomplete x⟩
      · exact absurd rfl hne
    · rintro ⟨hy, -⟩
      exact Or.inl ⟨rfl, Option.some.inj (hy.symm.trans h.here)⟩
  · have hother := h.other l x (fun heq => hx (congrArg Prod.snd heq))
    have hpend : ¬ σ.pend l x := fun hc => hx ((h.pend_iff x).mp hc).2
    rw [hp.has]
    unfold Entry
    rw [hother]
    constructor
    · rintro (⟨hxk, -⟩ | ⟨-, hy, hc, hlo, -⟩)
      · exact absurd hxk hx
      · exact ⟨hy, hc, hlo, hcomplete x⟩
    · rintro ⟨hy, hc, hlo, -⟩
      exact Or.inr ⟨hx, hy, hc, hlo, hpend⟩

end

theorem NodeOk.cutAt {p : Page} {n : ℕ} (hp : S.NodeOk σ l lo p n) (hlo : lo ∈ S.fences l)
    {s : ℕ} {y : Addr} (hs : p.Has n s y) (hfirst : p.key 0 < s) : (S.withMap m).CutAt l lo s where
  mem := hlo
  lt := by
    obtain ⟨i, hi, -⟩ := hs
    have hentry := (hp.has _ _).mp ⟨0, by omega, rfl, rfl⟩
    exact hentry.2.1.2.1.trans_lt hfirst
  before y' hy' hlt := ((hp.has _ _).mp hs).2.1.lt_of_lt hy' hlt
  below l' hl' := by
    subst hl'
    exact ⟨y, ((hp.has _ _).mp hs).1⟩

end Shape

section Store

variable {alloc : ℕ → Addr} {t : Tree} {S : Shape} {σ σ' : Slack} {l lo k : ℕ}
  {q a : Addr} {m : ℕ → Option Addr}

variable {p : Page} {n nl nr s x : ℕ} {b c root : Addr}

theorem Rep.halves (h : Rep alloc t S σ) (hlacks : S.Lacks σ σ' l k q m)
    (hk : Covers (S.fences l) k lo) {s : Split} (hp : S.NodeOk σ l lo p n)
    (hs : IsSplit p n b k q nl nr s) :
    (S.withMap m).Halves σ' l lo s.splitKey b s.left s.right nl nr := by
  have hleaf := h.leftmost_eq_zero_iff hp
  have hstored := hlacks.stored h.ok hk hp
  refine ⟨hs.left_full, hs.left_live.sound, fun _ => hs.left_live.forward,
    hs.left_level.trans hp.level, fun hl => hs.left_leftmost.trans (hp.leaf hl), fun hl => ?_,
    hs.left_sibling, fun x y => ?_, hs.right_full, hs.right_live.sound,
    fun _ => hs.right_live.forward, hs.right_level.trans hp.level,
    fun hl => hs.right_leaf (hp.leaf hl), fun hl => ?_, ?_, fun x y => ?_⟩
  · rw [Shape.withMap_inner hl, hs.left_leftmost, hp.inner hl]
  · rw [hs.left_has, hstored]
  · rw [Shape.withMap_inner hl]
    exact ((hp.has _ _).mp (hs.right_inner fun h0 => hl (hleaf.mp h0))).1
  · rw [hs.right_sibling]
    exact hp.sibling
  · rw [hs.right_has, hstored, ne_eq, hleaf]

/-- **A split** leaves the new page pending on the level above. -/
theorem Rep.splitHere (h : Rep alloc t S σ) (halloc : Function.Injective alloc)
    (hnull : ∀ i, alloc i ≠ 0) (hlacks : S.Lacks σ σ' l k q m) (ha : S.addr l lo = some a)
    (hk : Covers (S.fences l) k lo) {s : Split} (hp : S.NodeOk σ l lo p n)
    (hs : IsSplit p n (alloc t.next) k q nl nr s) :
    Rep alloc { (t.put (alloc t.next) s.right).put a s.left with next := t.next + 1 }
      ((S.withMap m).cut l s.splitKey (alloc t.next)) (σ'.lacking (l + 1) s.splitKey) := by
  obtain ⟨y, hy⟩ := hs.splitKey
  have hcut : (S.withMap m).CutAt l lo s.splitKey := hp.cutAt hk.1 hy hs.above_first
  have hcomplete := hlacks.complete l le_rfl
  refine rep_cut (t := t) ?_ (fun x => (hcomplete x).2) (hcomplete _).1 hcut ha (hnull _)
    (h.fresh halloc le_rfl) (h.halves hlacks hk hp hs) h.root h.height_le
    (fun hr => h.height (hr ∘ hlacks.removals.mp)) rfl
    (fun l' lo' a' ha' hne => ?_) (fun l' lo' a' ha' => ?_) ⟨t.next, Nat.lt_succ_self _, rfl⟩
  · exact ⟨h.ok.zero, h.ok.above, h.ok.nested, h.ok.inj, h.ok.nonnull, hlacks.pending h.ok⟩
  · obtain ⟨p', n', hheap, hp'⟩ := h.page l' lo' a' ha'
    exact ⟨p', n', hheap, (hlacks.alters lo).node_other hk hne hp'⟩
  · obtain ⟨i, hi, heq⟩ := h.used l' lo' a' ha'
    exact ⟨i, Nat.lt_succ_of_lt hi, heq⟩

/-- The shape after `setNewRoot`. -/
def Shape.grow (S : Shape) (c : Addr) : Shape where
  top := S.top + 1
  addr := fun l x => if l = S.top + 1 then if x = 0 then some c else none else S.addr l x
  map := S.map

theorem Shape.grow_addr_of_le {l : ℕ} (S : Shape) (hl : l ≤ S.top) (c : Addr) :
    (S.grow c).addr l = S.addr l := by
  funext x
  exact if_neg (by omega)

theorem Shape.grow_addr_of_mem (S : Shape) {l : ℕ} {a : Addr} (h : (S.grow c).addr l x = some a) :
    (l = S.top + 1 ∧ x = 0 ∧ a = c) ∨ S.addr l x = some a := by
  unfold Shape.grow at h
  dsimp only at h
  split_ifs at h with hl hx
  · exact Or.inl ⟨hl, hx, (Option.some.inj h).symm⟩
  · exact Or.inr h

theorem newRoot_live (left : Addr) (key : ℕ) {right : Addr} (hright : right ≠ 0) (level : ℕ) :
    (Page.newRoot left key right level).Live 1 where
  le := by decide
  ptr_ne i hi := by
    obtain rfl : i = 0 := by omega
    exact hright
  ptr_end := rfl
  sorted _ _ hij hj := by omega
  last := rfl
  forward := rfl

theorem newRoot_has (left : Addr) (key : ℕ) (right : Addr) (level x : ℕ) (y : Addr) :
    (Page.newRoot left key right level).Has 1 x y ↔ x = key ∧ y = right := by
  constructor
  · rintro ⟨i, hi, rfl, rfl⟩
    obtain rfl : i = 0 := by omega
    exact ⟨rfl, rfl⟩
  · rintro ⟨rfl, rfl⟩
    exact ⟨0, Nat.one_pos, rfl, rfl⟩

theorem Shape.grow_fences_of_le {l : ℕ} (S : Shape) (hl : l ≤ S.top) (c : Addr) :
    (S.grow c).fences l = S.fences l :=
  fences_congr (S.grow_addr_of_le hl c)

theorem Shape.grow_fences_top (S : Shape) (c : Addr) : (S.grow c).fences (S.top + 1) = {0} := by
  ext x
  simp only [Shape.fences, Shape.grow, if_true, Set.mem_ofPred_eq, Set.mem_singleton_iff]
  by_cases hx : x = 0 <;> simp [hx]

theorem Shape.grow_contents_of_le {l : ℕ} (S : Shape) (hl : l ≤ S.top + 1) (c : Addr) :
    (S.grow c).contents l = S.contents l := by
  cases l with
  | zero => rfl
  | succ l => exact S.grow_addr_of_le (by omega) c

theorem Shape.grow_ok (hok : S.Ok (σ.lacking (S.top + 1) s)) (hcomplete : σ.Complete (S.top + 1))
    (hnull : c ≠ 0) (hfresh : ∀ l x, S.addr l x ≠ some c) : (S.grow c).Ok σ where
  zero l hl := by
    rcases Nat.eq_or_lt_of_le hl with rfl | hlt
    · exact ⟨c, by simp [Shape.grow]⟩
    · rw [S.grow_fences_of_le (Nat.lt_succ_iff.mp hlt)]
      exact hok.zero l (Nat.lt_succ_iff.mp hlt)
  above := by
    rintro l x ⟨a, ha⟩
    rcases S.grow_addr_of_mem ha with ⟨rfl, -⟩ | ha
    · exact le_rfl
    · exact (hok.above l x ⟨a, ha⟩).trans (Nat.le_succ _)
  nested := by
    rintro l x ⟨a, ha⟩
    rcases S.grow_addr_of_mem ha with ⟨hl, rfl, -⟩ | ha
    · obtain rfl : l = S.top := by omega
      rw [S.grow_fences_of_le le_rfl]
      exact hok.zero _ le_rfl
    · have hl := hok.above _ x ⟨a, ha⟩
      rw [S.grow_fences_of_le (by omega)]
      exact hok.nested l ⟨a, ha⟩
  inj l x l' x' a ha ha' := by
    rcases S.grow_addr_of_mem ha with ⟨rfl, rfl, rfl⟩ | ha <;>
      rcases S.grow_addr_of_mem ha' with ⟨rfl, rfl, heq⟩ | ha'
    · exact ⟨rfl, rfl⟩
    · exact absurd ha' (hfresh _ _)
    · exact absurd (heq ▸ ha) (hfresh _ _)
    · exact hok.inj _ _ _ _ _ ha ha'
  nonnull l x a ha := by
    rcases S.grow_addr_of_mem ha with ⟨-, -, rfl⟩ | ha
    · exact hnull
    · exact hok.nonnull l x a ha
  pending l x hx := by
    obtain ⟨l', rfl, hmem, hnot⟩ := hok.pending l x (Or.inr hx)
    have hl : l' + 1 ≤ S.top := by
      by_contra hlt
      exact (hcomplete (l' + 1) (by omega) x).1 hx
    refine ⟨l', rfl, ?_, ?_⟩
    · rwa [S.grow_fences_of_le (by omega)]
    · rwa [S.grow_fences_of_le hl]

theorem Shape.node_grow (hl : l ≤ S.top) (c : Addr) :
    (S.grow c).NodeOk σ l lo p n ↔ S.NodeOk (σ.lacking (S.top + 1) s) l lo p n := by
  have hcontents : (S.grow c).contents l = S.contents l := S.grow_contents_of_le (by omega) c
  have hsibling : (S.grow c).IsSibling l lo = S.IsSibling l lo := by
    unfold Shape.IsSibling
    rw [S.grow_fences_of_le hl, S.grow_addr_of_le hl]
  have hshared : (S.grow c).Shared l lo = S.Shared l lo := by
    unfold Shape.Shared
    rw [S.grow_fences_of_le hl]
  have hentry : ∀ x y, (S.grow c).Entry σ l lo x y ↔
      S.Entry (σ.lacking (S.top + 1) s) l lo x y := by
    intro x y
    have hne : (l, x) ≠ (S.top + 1, s) := fun heq => by
      have htop : l = S.top + 1 := congrArg Prod.fst heq
      omega
    unfold Shape.Entry
    rw [S.grow_fences_of_le hl, hcontents, Slack.lacking_pend_of_ne hne]
  constructor
  · intro hp
    exact { hp with
      inner := fun h0 => hcontents ▸ hp.inner h0
      sibling := hsibling ▸ hp.sibling
      has := fun x y => (hp.has x y).trans (hentry x y)
      full := fun hs => hp.full (hshared ▸ hs) }
  · intro hp
    exact { hp with
      inner := fun h0 => hcontents.symm ▸ hp.inner h0
      sibling := hsibling.symm ▸ hp.sibling
      has := fun x y => (hp.has x y).trans (hentry x y).symm
      full := fun hs => hp.full (hshared.symm ▸ hs) }

theorem Shape.newRoot_ok (hcomplete : σ.Complete (S.top + 1)) (hroot : S.addr S.top 0 = some root)
    (hs : s ≠ 0) (hb : S.addr S.top s = some b) (hnull : b ≠ 0)
    (honly : ∀ x ∈ S.fences S.top, x = 0 ∨ x = s) (c : Addr) :
    (S.grow c).NodeOk σ (S.top + 1) 0 (Page.newRoot root s b (S.top + 1)) 1 := by
  have hroom := hcomplete (S.top + 1) le_rfl
  refine ⟨(newRoot_live _ _ hnull _).sound, fun _ => rfl, rfl, fun _ => Nat.one_pos,
    fun h1 => absurd h1 (by simp), fun h0 => absurd h0 (by simp), fun _ => ?_,
    Or.inl ⟨?_, rfl⟩, fun x y => ?_, fun hshared => ?_, fun c' hc' => ?_⟩
  · rw [S.grow_contents_of_le le_rfl]
    exact hroot
  · rw [S.grow_fences_top]
    exact fun y hy => (Set.mem_singleton_iff.mp hy).le
  · rw [newRoot_has]
    unfold Shape.Entry
    rw [S.grow_contents_of_le le_rfl, S.grow_fences_top]
    constructor
    · rintro ⟨rfl, rfl⟩
      exact ⟨hb, ⟨rfl, Nat.zero_le _, fun y hy _ => (Set.mem_singleton_iff.mp hy).le⟩,
        fun _ => hs, (hroom x).1⟩
    · rintro ⟨hy, -, hx, -⟩
      rcases honly x ⟨y, hy⟩ with h0 | rfl
      · exact absurd h0 (hx (by simp))
      · exact ⟨rfl, Option.some.inj (hy.symm.trans hb)⟩
  · obtain ⟨y, hy, hne⟩ := hshared
    rw [S.grow_fences_top] at hy
    exact absurd hy hne
  · exact absurd ((hroom 0).2.symm.trans hc') (by simp)

/-- **The root grows**: the two pages of the top level become the children of a new root. -/
theorem Rep.growRoot (h : Rep alloc t S (σ.lacking (S.top + 1) s))
    (hcomplete : σ.Complete (S.top + 1)) (halloc : Function.Injective alloc)
    (hnull : ∀ i, alloc i ≠ 0) (hs : s ≠ 0) (hb : S.addr S.top s = some b)
    (honly : ∀ x ∈ S.fences S.top, x = 0 ∨ x = s) : Rep alloc
      { t.put (alloc t.next) (Page.newRoot t.root s b (S.top + 1)) with
        root := alloc t.next
        height := t.height + 1
        next := t.next + 1 }
      (S.grow (alloc t.next)) σ ∧ (S.grow (alloc t.next)).Top := by
  have hfresh := h.fresh halloc le_rfl
  refine ⟨⟨Shape.grow_ok h.ok hcomplete (hnull _) hfresh, by simp [Shape.grow],
    Nat.succ_le_succ h.height_le, fun hr => congrArg (· + 1) (h.height hr), ?_, ?_⟩, ?_⟩
  · intro l lo a ha
    rcases S.grow_addr_of_mem ha with ⟨rfl, rfl, rfl⟩ | hold
    · exact ⟨_, 1, Tree.put_heap_self ..,
        Shape.newRoot_ok hcomplete h.root hs hb (h.ok.nonnull _ _ _ hb) honly _⟩
    · obtain ⟨p, n, hheap, hp⟩ := h.page l lo a hold
      have hne : a ≠ alloc t.next := by
        rintro rfl
        exact hfresh l lo hold
      exact ⟨p, n, (Tree.put_heap_of_ne _ hne _).trans hheap,
        (Shape.node_grow (h.ok.above l lo ⟨a, hold⟩) _).mpr hp⟩
  · intro l lo a ha
    rcases S.grow_addr_of_mem ha with ⟨-, -, rfl⟩ | hold
    · exact ⟨t.next, Nat.lt_succ_self _, rfl⟩
    · obtain ⟨i, hi, heq⟩ := h.used l lo a hold
      exact ⟨i, Nat.lt_succ_of_lt hi, heq⟩
  · intro x hx
    change x ∈ (S.grow _).fences (S.top + 1) at hx
    rw [S.grow_fences_top] at hx
    exact hx

/-- The levels below `l` are as they were. -/
def Shape.SameBelow (S S' : Shape) (l : ℕ) : Prop := ∀ l' < l, S'.addr l' = S.addr l'

/-- What `InsertInternal` has to do for a page on level `l` that the level above lacks. -/
def Settles (alloc : ℕ → Addr) (l top : ℕ) (insertInternal : Tree → ℕ → Addr → ℕ → Option Tree) :
    Prop :=
  ∀ t S σ s b, σ.Complete (l + 1) → Rep alloc t S (σ.lacking (l + 1) s) → S.Top → S.top = top →
    l < top → S.addr l s = some b →
      ∃ t' S', insertInternal t s b (l + 1) = some t' ∧ Rep alloc t' S' σ ∧ S'.Top ∧
        S'.map = S.map ∧ S.SameBelow S' (l + 1)

theorem Rep.inner_key_ne (h : Rep alloc t S σ) (hlacks : S.Lacks σ σ' l k q m)
    (hp : S.NodeOk σ l lo p n) : p.leftmostPtr ≠ 0 → ∀ i < n, p.key i ≠ k := by
  rintro hne i hi rfl
  have hentry := (hp.has _ _).mp ⟨i, hi, rfl, rfl⟩
  exact hentry.2.2.2 ((hlacks.pend_iff _).mpr
    ⟨fun hl => hne ((h.leftmost_eq_zero_iff hp).mpr hl), rfl⟩)

theorem Rep.lt_top (h : Rep alloc t S σ) (htop : S.Top) (ha : S.addr l lo = some a)
    (hroot : t.root ≠ a) : l < S.top := by
  refine lt_of_le_of_ne (h.ok.above l lo ⟨a, ha⟩) ?_
  rintro rfl
  obtain rfl := htop lo ⟨a, ha⟩
  exact hroot (Option.some.inj (h.root.symm.trans ha))

theorem Shape.Top.cut (htop : S.Top) (hl : l < S.top) (s : ℕ) (b : Addr) : (S.cut l s b).Top := by
  intro x hx
  change x ∈ Shape.fences _ S.top at hx
  rw [Shape.cut_fences_of_ne hl.ne'] at hx
  exact htop x hx

theorem Rep.insertHere (h : Rep alloc t S σ) (hlacks : S.Lacks σ σ' l k q m)
    (ha : S.addr l lo = some a) (hk : Covers (S.fences l) k lo) (hq : q ≠ 0)
    (hp : S.NodeOk σ l lo p n) (hn : n < cardinality - 1) :
    Rep alloc (t.put a (p.insertKey k q n).page) (S.withMap m) σ' := by
  have hsize : ∀ x c, σ'.size l x ≠ some c := fun x c hc => by
    exact absurd ((hlacks.complete l le_rfl x).2.symm.trans hc) (by simp)
  obtain ⟨n', hn', hle, hlive, hheader, hhas⟩ :=
    Page.insertKey_stored hp.sound hn hq (h.inner_key_ne hlacks hp)
  refine h.replace (hlacks.alters lo) (hlacks.pending h.ok) ha hk (n := n') ?_
  refine ⟨hlive.sound, fun _ => hlive.forward, hheader.2.2.trans hp.level, fun _ => hn',
    fun h0 => absurd h0 hn'.ne', fun hl => hheader.1.trans (hp.leaf hl), fun hl => ?_, ?_,
    fun x y => ?_, fun hshared hnone => (hp.full hshared ?_).trans hle,
    fun c hc => absurd hc (hsize lo c)⟩
  · rw [hheader.1, Shape.withMap_inner hl, hp.inner hl]
  · rw [hheader.2.1]
    exact hp.sibling
  · rw [hhas, hlacks.stored h.ok hk hp]
  · rw [← hlacks.size]
    exact hnone

/-- **`store` on the page that covers the key** stores the entry, and settles the levels
above when the page had to be split. -/
theorem Rep.store_here (h : Rep alloc t S σ) (htop : S.Top)
    (halloc : Function.Injective alloc) (hnull : ∀ i, alloc i ≠ 0) (hq : q ≠ 0)
    (hlacks : S.Lacks σ σ' l k q m) (ha : S.addr l lo = some a)
    (hk : Covers (S.fences l) k lo) {insertInternal : Tree → ℕ → Addr → ℕ → Option Tree}
    (hinternal : Settles alloc l S.top insertInternal) :
    ∃ t' upd S', storeHere alloc insertInternal t a k q true = some (t', upd) ∧
      Rep alloc t' S' σ' ∧ S'.Top ∧ S'.map = m ∧ S.SameBelow S' l := by
  obtain ⟨p, n, hheap, hp⟩ := h.page l lo a ha
  unfold storeHere
  rw [hheap, Option.bind_some, Page.count_sound hp.sound, Option.bind_some]
  by_cases hn : n < cardinality - 1
  · rw [if_pos hn, if_pos rfl]
    exact ⟨_, _, _, rfl, h.insertHere hlacks ha hk hq hp hn, htop, rfl, fun _ _ => rfl⟩
  · obtain ⟨nl, nr, hs⟩ := split_spec hp.sound (le_antisymm hp.sound.le (not_lt.mp hn)) hq
      (h.inner_key_ne hlacks hp) (alloc t.next)
    have hrep := h.splitHere halloc hnull hlacks ha hk hp hs
    have hcomplete : σ'.Complete (l + 1) := hlacks.complete.mono (Nat.le_succ l)
    obtain ⟨y, hy⟩ := hs.splitKey
    have hcut : (S.withMap m).CutAt l lo _ := hp.cutAt hk.1 hy hs.above_first
    rw [if_neg hn, if_neg (by simp)]
    dsimp only
    by_cases hroot : t.root = a
    · -- the page is the root, and its fence is `0`
      obtain ⟨rfl, rfl⟩ : l = S.top ∧ lo = 0 := by
        obtain ⟨h1, h2⟩ := h.ok.inj _ _ _ _ _ ha (hroot ▸ h.root)
        exact ⟨h1, h2⟩
      rw [if_pos hroot]
      have honly : ∀ x ∈ ((S.withMap m).cut S.top (split p n (alloc t.next) k q).splitKey
          (alloc t.next)).fences S.top, x = 0 ∨ x = (split p n (alloc t.next) k q).splitKey := by
        intro x hx
        rw [Shape.cut_fences_self] at hx
        rcases hx with rfl | hx
        · exact Or.inr rfl
        · exact Or.inl (htop x hx)
      have hgrow := hrep.growRoot hcomplete halloc hnull (Nat.ne_zero_of_lt hcut.lt)
        Shape.cut_addr_self honly
      refine ⟨_, _, _, rfl, ?_, hgrow.2, rfl, fun l' hl' => ?_⟩
      · have hpage : Page.newRoot a (split p n (alloc t.next) k q).splitKey (alloc t.next)
            (p.level + 1) = Page.newRoot t.root (split p n (alloc t.next) k q).splitKey
            (alloc t.next) (S.top + 1) := by rw [hroot, hp.level]
        rw [hpage]
        exact hgrow.1
      · have hle : l' ≤ ((S.withMap m).cut S.top (split p n (alloc t.next) k q).splitKey
            (alloc t.next)).top := hl'.le
        rw [Shape.grow_addr_of_le _ hle, Shape.cut_addr_level hl'.ne]
        rfl
    · rw [if_neg hroot, hp.level]
      have hlt : l < S.top := h.lt_top htop ha hroot
      have htop' : (S.withMap m).Top := htop
      obtain ⟨t', S', heq, hrep', htop'', hmap, hsame⟩ :=
        hinternal _ _ _ _ _ hcomplete hrep (htop'.cut hlt _ _) rfl hlt Shape.cut_addr_self
      rw [heq]
      refine ⟨t', _, S', rfl, hrep', htop'', hmap, fun l' hl' => ?_⟩
      rw [hsame l' (by omega), Shape.cut_addr_level hl'.ne]
      rfl

theorem Rep.store_eq (h : Rep alloc t S σ) (ha : S.addr l lo = some a)
    (hk : Covers (S.fences l) k lo) (insertInternal : Tree → ℕ → Addr → ℕ → Option Tree)
    (q : Addr) : store alloc insertInternal t.next t a k q true =
      storeHere alloc insertInternal t a k q true := by
  obtain ⟨fuel, hfuel⟩ := Nat.exists_eq_succ_of_ne_zero h.next_pos.ne'
  obtain ⟨p, n, hheap, hp⟩ := h.page l lo a ha
  rw [hfuel, store, hheap, Option.bind_some]
  rcases h.lt_sibling hp (fun y => hk.lt_of_lt) with h0 | ⟨first, hfirst, hlt⟩
  · rw [if_pos h0]
  · split_ifs
    · rfl
    · rw [hfirst, Option.bind_some, if_neg (Nat.lt_asymm hlt)]

/-- **`InsertInternal` settles a pending page**, by induction on the distance to the top. -/
theorem insertInternal_settles (halloc : Function.Injective alloc) (hnull : ∀ i, alloc i ≠ 0) :
    ∀ fuel l top, top - l ≤ fuel → Settles alloc l top (insertInternal alloc fuel) := by
  intro fuel
  induction fuel with
  | zero =>
    intro l top hfuel t S σ s b _ _ _ _ hl
    omega
  | succ fuel ih =>
    intro l top hfuel t S σ s b hcomplete h htop heq hl hb
    subst heq
    obtain ⟨r, n, hheap, hr⟩ := h.page _ _ _ h.root
    obtain ⟨lo, a, ha, hk, hdescend⟩ :=
      h.descend htop (fun p => p.level ≤ l + 1) (l + 1) (fun l' lo' p n' hp => by simp [hp.level])
        ((hcomplete.mono (Nat.le_succ _)).lacking s) hl s
    obtain ⟨t', upd, S', hstore, hrep, htop', hmap, hsame⟩ :=
      h.store_here htop halloc hnull (h.ok.nonnull _ _ _ hb) (Shape.lacks_inner hb hcomplete) ha
        hk (ih (l + 1) S.top (by omega))
    refine ⟨t', S', ?_, hrep, htop', hmap, hsame⟩
    rw [insertInternal, hheap, Option.bind_some, if_neg (by rw [hr.level]; omega), hdescend,
      Option.bind_some, h.store_eq ha hk, hstore]
    rfl

/-- **`Insert` updates the map.** -/
theorem Rep.insert (h : Rep alloc t S σ) (hcomplete : σ.Complete 0) (htop : S.Top)
    (halloc : Function.Injective alloc) (hnull : ∀ i, alloc i ≠ 0) (k : ℕ) (hq : q ≠ 0) :
    ∃ t' old S', t.insert alloc k q = some (t', old) ∧ Rep alloc t' S' σ ∧ S'.Top ∧
      S'.map = Function.update S.map k (some q) := by
  obtain ⟨lo, a, ha, hk, hdescend⟩ := h.descend_leaf htop (hcomplete.mono (Nat.zero_le 1)) k
  have hfuel : S.top - 0 ≤ t.height := by
    have := h.height_le
    omega
  obtain ⟨t', old, S', hstore, hrep, htop', hmap, -⟩ :=
    h.store_here htop halloc hnull hq (Shape.lacks_leaf S hcomplete k q) ha hk
      (insertInternal_settles halloc hnull t.height 0 S.top hfuel)
  refine ⟨t', old, S', ?_, hrep, htop', hmap⟩
  rw [Tree.insert, hdescend, Option.bind_some, h.store_eq ha hk, hstore]

/-- The shape of the empty tree. -/
def Shape.empty (root : Addr) : Shape where
  top := 0
  addr := fun l x => if l = 0 ∧ x = 0 then some root else none
  map := fun _ => none

theorem Shape.empty_addr {a : Addr} {l : ℕ} (h : (Shape.empty root).addr l x = some a) :
    l = 0 ∧ x = 0 ∧ a = root := by
  unfold Shape.empty at h
  dsimp only at h
  split_ifs at h with hx
  exact ⟨hx.1, hx.2, (Option.some.inj h).symm⟩

theorem Rep.new (hnull : ∀ i, alloc i ≠ 0) :
    Rep alloc (Tree.new alloc) (Shape.empty (alloc 0)) .tight ∧ (Shape.empty (alloc 0)).Top := by
  have hroot : (Shape.empty (alloc 0)).addr 0 0 = some (alloc 0) := by simp [Shape.empty]
  refine ⟨⟨⟨?_, ?_, ?_, ?_, ?_, fun _ _ => False.elim⟩, hroot, le_rfl, fun _ => rfl, ?_, ?_⟩, ?_⟩
  · intro l hl
    obtain rfl : l = 0 := Nat.le_zero.mp hl
    exact ⟨_, hroot⟩
  · rintro l x ⟨a, ha⟩
    exact (Shape.empty_addr ha).1.le
  · rintro l x ⟨a, ha⟩
    exact absurd (Shape.empty_addr ha).1 (Nat.succ_ne_zero l)
  · intro l x l' x' a ha ha'
    obtain ⟨rfl, rfl, -⟩ := Shape.empty_addr ha
    obtain ⟨rfl, rfl, -⟩ := Shape.empty_addr ha'
    exact ⟨rfl, rfl⟩
  · intro l x a ha
    obtain ⟨-, -, rfl⟩ := Shape.empty_addr ha
    exact hnull 0
  · intro l lo a ha
    obtain ⟨rfl, rfl, rfl⟩ := Shape.empty_addr ha
    refine ⟨Page.new 0, 0, by simp [Tree.new], (Page.new_live 0).sound, fun _ => rfl, rfl, by simp,
      fun _ => rfl, fun _ => rfl, fun h0 => absurd rfl h0, Or.inl ⟨?_, rfl⟩,
      fun x y => ⟨?_, ?_⟩, fun hshared => ?_, fun c hc => absurd hc (by simp [Slack.tight])⟩
    · rintro y ⟨a, ha⟩
      exact (Shape.empty_addr ha).2.1.le
    · rintro ⟨i, hi, -⟩
      exact absurd hi (Nat.not_lt_zero i)
    · rintro ⟨hy, -⟩
      simp [Shape.contents, Shape.empty] at hy
    · obtain ⟨y, ⟨a, ha⟩, hne⟩ := hshared
      exact absurd (Shape.empty_addr ha).2.1 hne
  · intro l lo a ha
    obtain ⟨rfl, rfl, rfl⟩ := Shape.empty_addr ha
    exact ⟨0, Nat.one_pos, rfl⟩
  · rintro x ⟨a, ha⟩
    exact (Shape.empty_addr ha).2.1

end Store

/-! ## A tree built by insertions -/

/-- A sequence of `Insert` calls; `none` when one of them does not return. -/
def Tree.insertAll (alloc : ℕ → Addr) (t : Tree) (ops : List (ℕ × Addr)) : Option Tree :=
  ops.foldlM (fun t op => (t.insert alloc op.1 op.2).map Prod.fst) t

/-- A map after a sequence of insertions. -/
def mapAfter (m : ℕ → Option Addr) (ops : List (ℕ × Addr)) : ℕ → Option Addr :=
  ops.foldl (fun m op => Function.update m op.1 (some op.2)) m

/-- The map that a sequence of insertions stands for. -/
def mapOf (ops : List (ℕ × Addr)) : ℕ → Option Addr := mapAfter (fun _ => none) ops

theorem mapOf_range (f : ℕ → Addr) (n x : ℕ) :
    mapOf ((List.range n).map fun i => (i, f i)) x = if x < n then some (f x) else none := by
  induction n with
  | zero => rfl
  | succ n ih =>
    rw [List.range_succ, List.map_append, mapOf, mapAfter, List.foldl_append]
    change Function.update (mapOf ((List.range n).map fun i => (i, f i))) n (some (f n)) x = _
    rcases Nat.lt_trichotomy x n with hlt | rfl | hgt
    · rw [Function.update_of_ne hlt.ne, ih, if_pos hlt, if_pos (by omega)]
    · rw [Function.update_self, if_pos (Nat.lt_succ_self x)]
    · rw [Function.update_of_ne hgt.ne', ih, if_neg (by omega), if_neg (by omega)]

theorem Rep.insertAll {alloc : ℕ → Addr} (halloc : Function.Injective alloc)
    (hnull : ∀ i, alloc i ≠ 0) (ops : List (ℕ × Addr)) :
    ∀ t S, Rep alloc t S .tight → S.Top → (∀ op ∈ ops, op.2 ≠ 0) →
      ∃ t' S', t.insertAll alloc ops = some t' ∧ Rep alloc t' S' .tight ∧ S'.Top ∧
        S'.map = mapAfter S.map ops := by
  induction ops with
  | nil => exact fun t S h htop _ => ⟨t, S, rfl, h, htop, rfl⟩
  | cons op ops ih =>
    intro t S h htop hops
    obtain ⟨t₁, old, S₁, heq, h₁, htop₁, hmap₁⟩ :=
      h.insert (Slack.complete_tight 0) htop halloc hnull op.1 (hops op List.mem_cons_self)
    obtain ⟨t', S', heq', h', htop', hmap'⟩ :=
      ih t₁ S₁ h₁ htop₁ fun op hop => hops op (List.mem_cons_of_mem _ hop)
    refine ⟨t', S', ?_, h', htop', by rw [hmap', hmap₁]; rfl⟩
    unfold Tree.insertAll
    rw [List.foldlM_cons, heq]
    exact heq'

/-- **The tree refines a finite map.** Pages come from an allocator that never returns null
and never returns a page twice. Every sequence of insertions of non-null values runs
through; and whenever the values stored are pairwise distinct and none of them is the
address of a page, `Search` reads the map. -/
theorem search_insertAll (alloc : ℕ → Addr) (halloc : Function.Injective alloc)
    (hnull : ∀ i, alloc i ≠ 0) (ops : List (ℕ × Addr)) (hops : ∀ op ∈ ops, op.2 ≠ 0) :
    ∃ t, (Tree.new alloc).insertAll alloc ops = some t ∧
      ((∀ x x' y, mapOf ops x = some y → mapOf ops x' = some y → x = x') →
        (∀ x y, mapOf ops x = some y → t.heap y = none) →
          ∀ k, t.search k = some ((mapOf ops k).getD 0)) := by
  obtain ⟨t, S, heq, h, htop, hmap⟩ :=
    Rep.insertAll halloc hnull ops _ _ (Rep.new hnull).1 (Rep.new hnull).2 hops
  have hmap' : S.map = mapOf ops := hmap
  refine ⟨t, heq, fun hdistinct hpages k => ?_⟩
  rw [← hmap'] at hdistinct hpages ⊢
  refine h.search htop (Slack.complete_tight 0) hdistinct (fun x y l lo hy ha => ?_) k
  obtain ⟨p, n, hheap, -⟩ := h.page l lo y ha
  exact absurd ((hpages x y hy).symm.trans hheap) (by simp)

theorem search_insertAll_duplicate :
    ∃ t, (Tree.new (· + 1)).insertAll (· + 1) [(5, 100), (3, 200), (5, 300)] = some t ∧
      t.search 5 = some 300 ∧ t.search 3 = some 200 ∧ t.search 4 = some 0 := by
  obtain ⟨t, heq, hsearch⟩ := search_insertAll (· + 1) (fun _ _ => Nat.succ.inj) Nat.succ_ne_zero
    [(5, 100), (3, 200), (5, 300)] (by decide)
  have hmap : ∀ x, mapOf [(5, 100), (3, 200), (5, 300)] x =
      if x = 5 then some 300 else if x = 3 then some 200 else none := by
    intro x
    simp only [mapOf, mapAfter, List.foldl_cons, List.foldl_nil, Function.update_apply]
    split_ifs <;> rfl
  have hheap : ((Tree.new (· + 1)).insertAll (· + 1) [(5, 100), (3, 200), (5, 300)]).map
      (fun t => ((t.heap 200).isNone, (t.heap 300).isNone)) = some (true, true) := by
    decide +kernel
  rw [heq, Option.map_some, Option.some.injEq, Prod.mk.injEq, Option.isNone_iff_eq_none,
    Option.isNone_iff_eq_none] at hheap
  have hread := hsearch
    (fun x x' y hx hx' => by
      rw [hmap] at hx hx'
      split_ifs at hx hx'
      · omega
      · exact absurd (hx.trans hx'.symm) (by decide)
      · exact absurd (hx.trans hx'.symm) (by decide)
      · omega)
    (fun x y hx => by
      rw [hmap] at hx
      split_ifs at hx
      · exact Option.some.inj hx ▸ hheap.2
      · exact Option.some.inj hx ▸ hheap.1)
  refine ⟨t, heq, ?_, ?_, ?_⟩ <;> rw [hread, hmap] <;> rfl

end McfKv.Btree
