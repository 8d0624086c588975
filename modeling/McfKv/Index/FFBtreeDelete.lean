import McfKv.Index.FFBtreeBalance

/-!
# `Page::remove` on a tree in order (`multi-cuckoo-index/ff_btreee.h`, `ff_btreee.cc`)

`Page::remove` and `RemoveInternal` call each other. On a leaf the first takes a key out of
the map; above, it takes a page out of its parent, and the map stays as it is. `Takes` covers
both, as `Lacks` does for insertions.
-/

namespace McfKv.Btree

open Fence

/-! ## An entry is taken out -/

namespace Shape

variable {S : Shape} {σ σ' : Slack} {l lo k x : ℕ} {m : ℕ → Option Addr}

/-- The entry at `k` is taken out of level `l`: on level `0` it leaves the map, above it is
then missing for a page of the level below. -/
structure Takes (S : Shape) (σ σ' : Slack) (l k : ℕ) (m : ℕ → Option Addr) : Prop where
  entry : ∀ lo x y, (S.withMap m).Entry σ' l lo x y ↔ x ≠ k ∧ S.Entry σ l lo x y
  contents : ∀ l' x, (l', x) ≠ (l, k) → (S.withMap m).contents l' x = S.contents l' x
  pend : ∀ l' x, (l', x) ≠ (l, k) → (σ'.pend l' x ↔ σ.pend l' x)
  pending : ∀ l' x, σ'.pend l' x → ∃ l'', l' = l'' + 1 ∧ x ∈ S.fences l'' ∧ x ∉ S.fences l'
  size : σ'.size = σ.size
  removals : σ.removals → σ'.removals

theorem takes_leaf (hok : S.Ok σ) (k : ℕ) : S.Takes σ σ 0 k (Function.update S.map k none) where
  entry lo x y := by
    unfold Entry
    change Function.update S.map k none x = some y ∧ Covers (S.fences 0) x lo ∧ _ ↔
      x ≠ k ∧ S.map x = some y ∧ Covers (S.fences 0) x lo ∧ _
    by_cases hx : x = k
    · subst hx
      simp
    · rw [Function.update_of_ne hx]
      simp [hx]
  contents l' x hne := by
    cases l' with
    | zero => exact Function.update_of_ne (fun hx => hne (by rw [hx])) ..
    | succ l' => rfl
  pend _ _ _ := Iff.rfl
  pending := hok.pending
  size := rfl
  removals := id

theorem takes_inner (hok : S.Ok σ) (hx : x ∈ S.fences l) (hnot : x ∉ S.fences (l + 1)) :
    S.Takes σ (σ.lacking (l + 1) x) (l + 1) x S.map where
  entry lo z y := by
    have hpend : (σ.lacking (l + 1) x).pend (l + 1) z ↔ z = x ∨ σ.pend (l + 1) z := by
      simp [Slack.lacking]
    unfold Entry
    rw [hpend, not_or]
    constructor
    · rintro ⟨hy, hcov, hlo, hne, hfree⟩
      exact ⟨hne, hy, hcov, hlo, hfree⟩
    · rintro ⟨hne, hy, hcov, hlo, hfree⟩
      exact ⟨hy, hcov, hlo, hne, hfree⟩
  contents _ _ _ := rfl
  pend _ _ hne := Slack.lacking_pend_of_ne hne
  pending l' z := by
    rintro (⟨rfl, rfl⟩ | hz)
    · exact ⟨l, rfl, hx, hnot⟩
    · exact hok.pending l' z hz
  size := rfl
  removals := id

theorem Takes.complete (h : S.Takes σ σ' l k m) (hcomplete : σ.Complete l) :
    σ'.Complete (l + 1) := by
  intro l' hl' z
  have hne : (l', z) ≠ (l, k) := fun hc => by
    have := congrArg Prod.fst hc
    dsimp only at this
    omega
  obtain ⟨hpend, hsize⟩ := hcomplete l' (by omega) z
  exact ⟨fun hz => hpend ((h.pend l' z hne).mp hz), by rw [h.size, hsize]⟩

theorem Takes.alters (h : S.Takes σ σ' l k m) (lo c : ℕ) :
    S.Alters σ m (σ'.sized l lo c) l lo k where
  contents := h.contents
  pend := h.pend
  size l' x hne := by rw [Slack.sized_size_of_ne hne, h.size]
  removals := h.removals

end Shape

section Take

variable {alloc : ℕ → Addr} {t : Tree} {S : Shape} {σ σ' : Slack} {l lo k c n : ℕ} {a : Addr}
  {m : ℕ → Option Addr} {p : Page}

/-- **`remove_key` on the page that covers the key.** The page may have too few entries
afterwards. -/
theorem Rep.take (h : Rep alloc t S σ) (hremovals : σ.removals) (htakes : S.Takes σ σ' l k m)
    (ha : S.addr l lo = some a) (hk : Covers (S.fences l) k lo) (hp : S.NodeOk σ l lo p n)
    (hpos : l ≠ 0 ∨ lo ≠ 0 → 1 < n) : ∃ p' found n', p.removeKey k = some (p', found) ∧
      Rep alloc (t.put a p') (S.withMap m) (σ'.sized l lo n') ∧
      ((found = true ∧ n = n' + 1) ∨ (found = false ∧ n' = n ∧ ∀ i < n, p.key i ≠ k)) := by
  obtain ⟨p', found, n', heq, hsound, hstale, ⟨hleftmost, hsibling, hlevel⟩, hhas, hfound⟩ :=
    Page.removeKey_spec hp.sound hp.stale k
  refine ⟨p', found, n', heq, ?_, ?_⟩
  · refine h.replace (htakes.alters lo n') htakes.pending ha hk (n := n') ?_
    refine ⟨hsound, fun hr => absurd (htakes.removals hremovals) hr, hlevel.trans hp.level,
      fun hl => ?_, hstale, fun hl => hleftmost.trans (hp.leaf hl), fun hl => ?_, ?_, fun x y => ?_,
      fun _ hnone => ?_, fun c hc => ?_⟩
    · have := hpos hl
      rcases hfound with ⟨-, hn⟩ | ⟨-, hn, -⟩ <;> omega
    · rw [hleftmost, Shape.withMap_inner hl, hp.inner hl]
    · rw [hsibling]
      exact hp.sibling
    · rw [hhas, hp.has]
      exact (htakes.entry lo x y).symm
    · exact absurd (Slack.sized_size_self.symm.trans hnone) (by simp)
    · exact Option.some.inj (Slack.sized_size_self.symm.trans hc)
  · rcases hfound with hfound | ⟨hfound, hn, -, habsent⟩
    · exact Or.inl hfound
    · exact Or.inr ⟨hfound, hn, habsent⟩

theorem Rep.unsized (h : Rep alloc t S (σ.sized l lo c)) (hsize : σ.size l lo = none)
    (hfull : S.Shared l lo → minEntries ≤ c) : Rep alloc t S σ where
  ok := ⟨h.ok.zero, h.ok.above, h.ok.nested, h.ok.inj, h.ok.nonnull, h.ok.pending⟩
  root := h.root
  height_le := h.height_le
  height := h.height
  page l' lo' a' ha' := by
    obtain ⟨p, n, hheap, hp⟩ := h.page l' lo' a' ha'
    by_cases hne : (l', lo') = (l, lo)
    · obtain ⟨rfl, rfl⟩ := Prod.mk.inj hne
      have hn : n = c := hp.size c Slack.sized_size_self
      exact ⟨p, n, hheap, { hp with
        full := fun hs _ => hn ▸ hfull hs
        size := fun c' hc' => absurd (hsize.symm.trans hc') (by simp) }⟩
    · exact ⟨p, n, hheap, hp.resize hne⟩
  used := h.used

theorem Shape.NodeOk.last_of_top (hp : S.NodeOk σ l lo p n) (htop : S.Top) (hl : S.top = l) :
    p.siblingPtr = 0 := by
  rcases hp.sibling with ⟨-, h0⟩ | ⟨y, hnext, -⟩
  · exact h0
  · exact absurd (htop y (hl ▸ hnext.1)) (Nat.ne_zero_of_lt hnext.2.1)

theorem Rep.shared (h : Rep alloc t S σ) (hl : l < S.top) (lo : ℕ) : S.Shared l lo := by
  obtain ⟨r, n, -, hr⟩ := h.page _ _ _ h.root
  obtain ⟨top, htop⟩ := Nat.exists_eq_succ_of_ne_zero (Nat.ne_zero_of_lt hl)
  rw [htop] at hr
  -- the first key of the root is a fence other than `0` of the level below
  have hentry := (hr.has _ _).mp ⟨0, hr.pos (Or.inl (Nat.succ_ne_zero top)), rfl, rfl⟩
  have hle : l ≤ top := by omega
  have hkey : r.key 0 ∈ S.fences l := h.ok.fences_subset hle ⟨_, hentry.1⟩
  by_cases hlo : lo = 0
  · exact ⟨r.key 0, hkey, hlo ▸ hentry.2.2.1 (Nat.succ_ne_zero top)⟩
  · exact ⟨0, h.ok.zero l hl.le, Ne.symm hlo⟩

end Take

/-! ## The root goes away -/

/-- The shape without its top level. -/
def Shape.shrink (S : Shape) : Shape where
  top := S.top - 1
  addr := fun l x => if l = S.top then none else S.addr l x
  map := S.map

section Shrink

variable {alloc : ℕ → Addr} {t : Tree} {S : Shape} {σ : Slack} {l : ℕ} {p : Page}

theorem Shape.shrink_addr_of_le (hl : S.top = l + 1) {l' : ℕ} (hl' : l' ≤ l) :
    S.shrink.addr l' = S.addr l' := by
  funext x
  exact if_neg (by omega)

theorem Shape.shrink_fences_of_le (hl : S.top = l + 1) {l' : ℕ} (hl' : l' ≤ l) :
    S.shrink.fences l' = S.fences l' :=
  fences_congr (shrink_addr_of_le hl hl')

theorem Shape.shrink_top (hl : S.top = l + 1) : S.shrink.top = l := by
  change S.top - 1 = l
  omega

theorem Shape.Ok.addr_of_shrink (hok : S.Ok σ) (hl : S.top = l + 1) {l' x : ℕ} {a : Addr}
    (h : S.shrink.addr l' x = some a) : l' ≤ l ∧ S.addr l' x = some a := by
  unfold Shape.shrink at h
  dsimp only at h
  split_ifs at h with htop
  have := hok.above l' x ⟨a, h⟩
  exact ⟨by omega, h⟩

theorem Shape.shrink_ok (hok : S.Ok σ) (hcomplete : σ.Complete (l + 1)) (hl : S.top = l + 1)
    {x : ℕ} (hx : x ∈ S.fences l) : S.shrink.Ok (σ.lacking (l + 1) x) where
  zero l' hl' := by
    rw [shrink_top hl] at hl'
    rw [shrink_fences_of_le hl hl']
    exact hok.zero l' (by omega)
  above l' z := by
    rintro ⟨a, ha⟩
    rw [shrink_top hl]
    exact (hok.addr_of_shrink hl ha).1
  nested l' z := by
    rintro ⟨a, ha⟩
    obtain ⟨hl', ha⟩ := hok.addr_of_shrink hl ha
    rw [shrink_fences_of_le hl (by omega)]
    exact hok.nested l' ⟨a, ha⟩
  inj l₁ x₁ l₂ x₂ a h₁ h₂ :=
    hok.inj _ _ _ _ a (hok.addr_of_shrink hl h₁).2 (hok.addr_of_shrink hl h₂).2
  nonnull l' z a ha := hok.nonnull _ _ a (hok.addr_of_shrink hl ha).2
  pending l' z := by
    rintro (⟨rfl, rfl⟩ | hz)
    · refine ⟨l, rfl, (shrink_fences_of_le hl le_rfl).symm ▸ hx, ?_⟩
      rintro ⟨a, ha⟩
      exact absurd (hok.addr_of_shrink hl ha).1 (by omega)
    · obtain ⟨l'', rfl, hmem, hnot⟩ := hok.pending l' z hz
      have hl'' : l'' + 1 ≤ l := by
        by_contra hgt
        exact (hcomplete (l'' + 1) (by omega) z).1 hz
      refine ⟨l'', rfl, ?_, ?_⟩
      · rwa [shrink_fences_of_le hl (by omega)]
      · rwa [shrink_fences_of_le hl hl'']

theorem Shape.grow_shrink (htop : S.Top) (hl : S.top = l + 1) {root : Addr}
    (hroot : S.addr S.top 0 = some root) : S.shrink.grow root = S := by
  have hsucc : S.shrink.top + 1 = S.top := by rw [shrink_top hl, hl]
  have haddr : (S.shrink.grow root).addr = S.addr := by
    funext l' x
    unfold Shape.grow
    dsimp only
    rw [hsucc]
    by_cases hl' : l' = S.top
    · subst hl'
      rw [if_pos rfl]
      by_cases hx : x = 0
      · rw [if_pos hx, hx, hroot]
      · rw [if_neg hx]
        by_contra hne
        obtain ⟨a, ha⟩ := Option.ne_none_iff_exists'.mp (Ne.symm hne)
        exact hx (htop x ⟨a, ha⟩)
    · rw [if_neg hl']
      exact if_neg hl'
  calc S.shrink.grow root
      = { S with top := S.shrink.top + 1, addr := (S.shrink.grow root).addr } := rfl
    _ = S := by rw [hsucc, haddr]

/-- **The root has one entry left**, and it is removed: the leftmost child is the new root. -/
theorem Rep.shrinkRoot (h : Rep alloc t S σ) (hremovals : σ.removals)
    (hcomplete : σ.Complete (l + 1)) (htop : S.Top) (hl : S.top = l + 1)
    (hp : S.NodeOk σ (l + 1) 0 p 1) (p' : Page) :
    Rep alloc { t.put t.root p' with root := p.leftmostPtr } S.shrink
        (σ.lacking (l + 1) (p.key 0)) ∧
      S.SameBelow S.shrink (l + 1) ∧ S.shrink.Headed l (p.key 0) := by
  have hstop : S.shrink.top = l := Shape.shrink_top hl
  have hfirst := (hp.has _ _).mp ⟨0, Nat.one_pos, rfl, rfl⟩
  refine ⟨⟨Shape.shrink_ok h.ok hcomplete hl ⟨_, hfirst.1⟩, ?_, ?_, absurd hremovals,
    fun l' lo' a ha => ?_, fun l' lo' a ha => h.used l' lo' a (h.ok.addr_of_shrink hl ha).2⟩,
    fun l' hl' => Shape.shrink_addr_of_le hl (by omega), Or.inr ⟨hstop, fun y hy => ?_⟩⟩
  · rw [hstop, Shape.shrink_addr_of_le hl le_rfl]
    exact hp.inner (Nat.succ_ne_zero l)
  · have := h.height_le
    change S.shrink.top + 1 ≤ t.height
    omega
  · obtain ⟨hl', hold⟩ := h.ok.addr_of_shrink hl ha
    obtain ⟨p₀, n₀, hheap, hp₀⟩ := h.page l' lo' a hold
    have hne : a ≠ t.root := h.addr_ne h.root hold fun hc => by
      have := congrArg Prod.fst hc
      dsimp only at this
      omega
    rw [← Shape.grow_shrink htop hl h.root, Shape.node_grow (s := p.key 0) (by omega), hstop] at hp₀
    exact ⟨p₀, n₀, (t.put_heap_of_ne hne p').trans hheap, hp₀⟩
  · -- the fences below the old root are its own and its one key
    rw [Shape.shrink_fences_of_le hl le_rfl] at hy
    have hcov : Covers (S.fences (l + 1)) y 0 := by
      rw [← hl]
      exact ⟨⟨_, h.root⟩, Nat.zero_le y, fun z hz _ => (htop z hz).le⟩
    rcases hp.fence_below (fun z => (hcomplete _ le_rfl z).1) hy hcov with h0 | ⟨i, hi, rfl⟩
    · exact Or.inl h0
    · obtain rfl : i = 0 := by omega
      exact Or.inr rfl

end Shrink

/-! ## `RemoveInternal` and the rebalancing of a page -/

section Parent

variable {alloc : ℕ → Addr} {t : Tree} {S : Shape} {σ τ : Slack} {l lo c k x z n : ℕ} {a : Addr}
  {p : Page}

theorem Shape.NodeOk.isNext_childFence (hp : S.NodeOk σ (l + 1) z p n)
    (hpend : ∀ y, ¬ σ.pend (l + 1) y) (hz : z ∈ S.fences (l + 1)) {i : ℕ} (hi : i < n) :
    IsNext (S.fences l) (p.childFence z i) (p.key i) := by
  have hentry := (hp.has _ _).mp ⟨i, hi, rfl, rfl⟩
  refine ⟨⟨_, hentry.1⟩, hp.childFence_lt hi, fun y hy hlt => ?_⟩
  have hzy : z < y := (hp.covers_childFence hz hi.le).2.1.trans_lt hlt
  by_cases hcov : Covers (S.fences (l + 1)) y z
  · rcases hp.fence_below hpend hy hcov with heq | ⟨j, hj, rfl⟩
    · exact absurd heq hzy.ne'
    · by_contra hgt
      have hji : j < i := by
        by_contra hge
        exact hgt (hp.sound.key_le (not_lt.mp hge) hj)
      obtain ⟨i', rfl⟩ := Nat.exists_eq_succ_of_ne_zero (Nat.ne_zero_of_lt hji)
      exact absurd (hp.sound.key_le (Nat.le_of_lt_succ hji) (by omega)) (not_le.mpr hlt)
  · -- another page of the level above covers it
    have hbehind : ∃ y' ∈ S.fences (l + 1), y' ≤ y ∧ z < y' := by
      by_contra hnone
      push Not at hnone
      exact hcov ⟨hz, hzy.le, hnone⟩
    obtain ⟨y', hy', hle, hlt'⟩ := hbehind
    exact (hentry.2.1.lt_of_lt hy' hlt').le.trans hle

theorem Page.findChild_eq (h : p.Sound n) {i : ℕ} (hi : i < n)
    (hinj : ∀ j < n, p.ptr j = p.ptr i → j = i) (hprev : p.prevPtr i ≠ p.ptr i) :
    ∀ fuel j, j ≤ i → i < j + fuel → p.findChild (p.ptr i) fuel j = some (some i) := by
  intro fuel
  induction fuel with
  | zero =>
    intro j hji hfuel
    omega
  | succ fuel ih =>
    intro j hji hfuel
    rw [Page.findChild, if_neg (h.ptr_ne j (by omega))]
    by_cases hj : j = i
    · subst hj
      rw [if_pos ⟨rfl, hprev⟩]
    · rw [if_neg fun hc => hj (hinj j (by omega) hc.1)]
      exact ih (j + 1) (by omega) (by omega)

theorem Page.prevPtr_eq_child (p : Page) (i : ℕ) : p.prevPtr i = p.child i := by
  cases i with
  | zero => rfl
  | succ i => rfl

theorem Rep.removeInternal_eq (h : Rep alloc t S σ) (hcomplete : σ.Complete (l + 1))
    (htop : S.Top) (hz : Covers (S.fences (l + 1)) k z)
    (remove : Tree → Addr → ℕ → Option (Tree × Bool)) (a : Addr) :
    ∃ b P N, S.addr (l + 1) z = some b ∧ S.NodeOk σ (l + 1) z P N ∧
      (P.leftmostPtr = a → removeInternal remove t k a (l + 1) = some ⟨t, 0, true, none⟩) ∧
      ∀ i, P.leftmostPtr ≠ a → P.findChild a cardinality 0 = some (some i) →
        removeInternal remove t k a (l + 1) =
          (remove t b (P.key i)).map fun res => ⟨res.1, P.key i, false, some (P.prevPtr i)⟩ := by
  have hl : l + 1 ≤ S.top := h.ok.above _ _ hz.1
  obtain ⟨r, nr, hheapr, hr⟩ := h.page _ _ _ h.root
  obtain ⟨z', b, hb, hk, hdescend⟩ := h.descend htop (fun p => p.level ≤ l + 1) (l + 1)
    (fun l' lo' p n' hp => by simp [hp.level]) (hcomplete.mono (Nat.le_succ _)) hl k
  obtain rfl := hk.unique hz
  obtain ⟨P, N, hheap, hP⟩ := h.page _ _ _ hb
  unfold removeInternal
  rw [hheapr, Option.bind_some, if_neg (by rw [hr.level]; omega), hdescend, Option.bind_some, hheap,
    Option.bind_some]
  refine ⟨b, P, N, hb, hP, fun heq => if_pos heq, fun i hne hfind => ?_⟩
  rw [if_neg hne, hfind, Option.bind_some]

/-- What `Page::remove` has to do above level `l` for a page that is to be taken out of its
parent. The root may go away. -/
def Removes (alloc : ℕ → Addr) (l top : ℕ) (remove : Tree → Addr → ℕ → Option (Tree × Bool)) :
    Prop :=
  ∀ t S σ z b x, σ.removals → σ.Complete (l + 1) → Rep alloc t S σ → S.Top → S.top = top →
    S.addr (l + 1) z = some b → Covers (S.fences (l + 1)) x z → x ∈ S.fences l →
    x ∉ S.fences (l + 1) →
      ∃ t' S' found, remove t b x = some (t', found) ∧ Rep alloc t' S' (σ.lacking (l + 1) x) ∧
        S'.map = S.map ∧ S.SameBelow S' (l + 1) ∧ S'.Headed l x

section

variable (h : Rep alloc t S (τ.sized l lo c)) (hremovals : τ.removals)
  (hcomplete : τ.Complete (l + 1)) (hsize : ∀ y, τ.size l y = none)
  (halloc : Function.Injective alloc) (hnull : ∀ i, alloc i ≠ 0) (htop : S.Top)

include h hremovals hcomplete hsize halloc hnull htop

/-- **The rebalancing of a page that has a left sibling under the same parent.** The page or
that sibling has too few entries. -/
theorem Rep.rebalance_entry (hlo : lo ∈ S.fences l) (hc : c ≤ minEntries)
    (hinner : l ≠ 0 → c < minEntries) {remove : Tree → Addr → ℕ → Bool → Option (Tree × Bool)}
    (hremoves : Removes alloc l S.top fun t b x => remove t b x false) (ha : S.addr l x = some a)
    (hx : x ∉ S.fences (l + 1)) (hxz : Covers (S.fences (l + 1)) x z)
    (hkz : Covers (S.fences (l + 1)) k z) (hthin : lo = x ∨ IsNext (S.fences l) lo x) :
    ∃ t' S', rebalance alloc remove t a k = some t' ∧ Rep alloc t' S' τ ∧ S'.Top ∧
      S'.map = S.map ∧ S.SameBelow S' l := by
  obtain ⟨p, n, hheap, hp⟩ := h.page _ _ _ ha
  obtain ⟨b, P, N, hb, hP, -, hinternal⟩ := h.removeInternal_eq (hcomplete.sized lo c) htop hkz
    (fun t b x => remove t b x false) a
  have hpend : ∀ y, ¬ (τ.sized l lo c).pend (l + 1) y := fun y => (hcomplete _ le_rfl y).1
  -- the entry of the page in its parent
  have hxz' : x ≠ z := fun heq => hx (heq ▸ hxz.1)
  obtain ⟨i, hi, rfl⟩ := (hP.fence_below hpend ⟨a, ha⟩ hxz).resolve_left hxz'
  have hchild : ∀ j ≤ N, S.addr l (P.childFence z j) = some (P.child j) := fun j => hP.addr_child
  obtain rfl : P.ptr i = a := Option.some.inj ((hchild (i + 1) hi).symm.trans ha)
  have hnext := hP.isNext_childFence hpend hxz.1 hi
  have hleftmost : P.leftmostPtr ≠ P.ptr i := fun heq =>
    hxz' (h.ok.inj _ _ _ _ _ ha ((hP.inner (Nat.succ_ne_zero l)).trans (congrArg some heq))).2
  have hfind : P.findChild (P.ptr i) cardinality 0 = some (some i) := by
    have hN : N ≤ cardinality - 1 := hP.sound.le
    refine Page.findChild_eq hP.sound hi (fun j hj heq => ?_) (fun heq => ?_) _ 0 (Nat.zero_le i)
      (by omega)
    · refine hP.sound.key_inj hj hi ?_
      exact (h.ok.inj _ _ _ _ _ (hchild (j + 1) hj) (heq ▸ ha)).2
    · rw [Page.prevPtr_eq_child] at heq
      exact hnext.2.1.ne (h.ok.inj _ _ _ _ _ (hchild i hi.le) (heq ▸ ha)).2
  obtain ⟨t₁, S₁, found, hremove, h₁, hmap₁, hsame₁, hhead⟩ :=
    hremoves t S (τ.sized l lo c) z b (P.key i) hremovals (hcomplete.sized lo c) h htop rfl hb hxz
      ⟨_, ha⟩ hx
  dsimp only at hremove
  have haddr : S₁.addr l = S.addr l := hsame₁ l (Nat.lt_succ_self l)
  have hfences : S₁.fences l = S.fences l := Shape.fences_congr haddr
  have hw : lo = P.childFence z i ∨ lo = P.key i := by
    rcases hthin with heq | hthin
    · exact Or.inr heq
    · exact Or.inl (hthin.prev_unique hnext hlo ⟨_, hchild i hi.le⟩)
  obtain ⟨t', S', heq, hrep, htop', hmap', hsame'⟩ :=
    h₁.balance_spec hremovals hcomplete hsize halloc hnull (hfences ▸ hnext) hw
      (haddr ▸ hchild i hi.le) (haddr ▸ ha) hhead hc hinner
  refine ⟨t', S', ?_, hrep, htop', hmap'.trans hmap₁, fun l' hl' => ?_⟩
  · rw [rebalance, hheap, Option.bind_some, hp.level, hinternal i hleftmost hfind,
      hremove, Option.map_some, Option.bind_some, if_neg (by simp), Option.bind_some,
      Page.prevPtr_eq_child]
    exact heq
  · exact (hsame' l' hl').trans (hsame₁ l' (Nat.lt_succ_of_lt hl'))

/-- **The rebalancing of a page that has too few entries.** The first child of its parent has
no left sibling there; its right sibling is rebalanced instead. -/
theorem Rep.rebalance_thin (hl : l < S.top) (ha : S.addr l lo = some a)
    (hk : Covers (S.fences l) k lo) (hc : c ≤ minEntries) (hinner : l ≠ 0 → c < minEntries)
    {fuel : ℕ}
    (hremoves : Removes alloc l S.top fun t b x => removePage alloc (fuel + 1) t b x false)
    (hremoves' : Removes alloc l S.top fun t b x => removePage alloc fuel t b x false) :
    ∃ t' S', rebalance alloc (removePage alloc (fuel + 1)) t a k = some t' ∧ Rep alloc t' S' τ ∧
      S'.Top ∧ S'.map = S.map ∧ S.SameBelow S' l := by
  by_cases hmem : lo ∈ S.fences (l + 1)
  · have hself : Covers (S.fences (l + 1)) lo lo := ⟨hmem, le_rfl, fun y _ hy => hy⟩
    obtain ⟨p, n, hheap, hp⟩ := h.page _ _ _ ha
    obtain ⟨b, P, N, hb, hP, hinternal, -⟩ := h.removeInternal_eq (hcomplete.sized lo c) htop
      (hself.trans (h.ok.nested l) hk) (fun t b x => removePage alloc (fuel + 1) t b x false) a
    have hleftmost : P.leftmostPtr = a :=
      Option.some.inj ((hP.inner (Nat.succ_ne_zero l)).symm.trans ha)
    -- the right sibling is the next child of the same parent
    have hpos : 0 < N := hP.pos (Or.inl (Nat.succ_ne_zero l))
    have hnext : IsNext (S.fences l) lo (P.key 0) :=
      hP.isNext_childFence (fun y => (hcomplete _ le_rfl y).1) hmem hpos
    have hsib := hp.sibling.addr_next hnext
    have hentry := (hP.has _ _).mp ⟨0, hpos, rfl, rfl⟩
    obtain ⟨first, y, hfirst, hfirsty, -⟩ := h.firstKey_entry hsib (Nat.ne_zero_of_lt hnext.2.1)
    have hnot : P.key 0 ∉ S.fences (l + 1) := fun hc =>
      absurd (hentry.2.1.2.2 _ hc le_rfl) (not_le.mpr hnext.2.1)
    obtain ⟨t', S', heq, hrep⟩ := h.rebalance_entry hremovals hcomplete hsize halloc hnull htop
      ⟨a, ha⟩ hc hinner hremoves' hsib hnot hentry.2.1
      (hentry.2.1.trans (h.ok.nested l) hfirsty.2.1) (Or.inr hnext)
    refine ⟨t', S', ?_, hrep⟩
    rw [rebalance, hheap, Option.bind_some, hp.level, hinternal hleftmost,
      Option.bind_some, if_pos rfl, hheap, Option.bind_some, hfirst, Option.bind_some, removePage,
      if_pos rfl, heq]
    rfl
  · obtain ⟨z, hz⟩ := h.exists_covers (Nat.succ_le_of_lt hl) lo
    exact h.rebalance_entry hremovals hcomplete hsize halloc hnull htop ⟨a, ha⟩ hc hinner hremoves
      ha hmem hz (hz.trans (h.ok.nested l) hk) (Or.inl rfl)

end

end Parent

/-! ## `Page::remove` -/

section RemovePage

variable {alloc : ℕ → Addr} {t : Tree} {S : Shape} {σ σ' : Slack} {l lo k n : ℕ} {a : Addr}
  {m : ℕ → Option Addr} {p : Page}

/-- **`Page::remove` on the page that covers the key**, unless the root is to go away. It
returns `false` only for a key that the page does not have. -/
theorem Rep.removePage_takes (h : Rep alloc t S σ) (hremovals : σ.removals)
    (hcomplete : σ.Complete l) (htop : S.Top) (halloc : Function.Injective alloc)
    (hnull : ∀ i, alloc i ≠ 0) (htakes : S.Takes σ σ' l k m) (ha : S.addr l lo = some a)
    (hk : Covers (S.fences l) k lo) (hheap : t.heap a = some p) (hp : S.NodeOk σ l lo p n)
    (hinner : l ≠ 0 → ∃ i < n, p.key i = k) (hroot : t.root = a → l ≠ 0 → n ≠ 1)
    (fuel : ℕ) (hfuel : l < S.top → ∃ f, fuel = f + 1 ∧
      (Removes alloc l S.top fun t b x => removePage alloc (f + 1) t b x false) ∧
      Removes alloc l S.top fun t b x => removePage alloc f t b x false) :
    ∃ t' S' found, removePage alloc (fuel + 1) t a k false = some (t', found) ∧
      Rep alloc t' S' σ' ∧ S'.Top ∧ S'.map = m ∧ S.SameBelow S' l ∧
      (found = false → minEntries < n ∧ ∀ i < n, p.key i ≠ k) := by
  have hmin : minEntries = 14 := rfl
  have hsize : ∀ y, σ.size l y = none := fun y => (hcomplete l le_rfl y).2
  have hsize' : ∀ y, σ'.size l y = none := by rwa [htakes.size]
  have hshared : t.root ≠ a → minEntries ≤ n := fun hne =>
    hp.full (h.shared (h.lt_top htop ha hne) lo) (hsize lo)
  have hpos : l ≠ 0 ∨ lo ≠ 0 → 1 < n := fun hl => by
    by_cases hroota : t.root = a
    · obtain ⟨rfl, rfl⟩ := h.ok.inj _ _ _ _ _ ha (hroota ▸ h.root)
      have hl0 := hl.resolve_right (fun h0 => h0 rfl)
      have h0 := hp.pos hl
      have h1 := hroot hroota hl0
      omega
    · have := hshared hroota
      omega
  obtain ⟨p', found, n', heq, hrep, hfound⟩ := h.take hremovals htakes ha hk hp hpos
  have hn' : n ≤ n' + 1 ∧ n' ≤ n := by
    rcases hfound with ⟨-, hn⟩ | ⟨-, hn, -⟩ <;> omega
  unfold removePage
  rw [if_neg (by simp), hheap, Option.bind_some, Page.count_sound hp.sound, Option.bind_some, heq,
    Option.bind_some]
  dsimp only
  by_cases hroota : t.root = a
  · have hshrink : ¬(0 < p.level ∧ n = 1 ∧ p.siblingPtr = 0) := fun hc =>
      hroot hroota (by rw [← hp.level]; exact hc.1.ne') hc.2.1
    rw [if_pos hroota, if_neg hshrink]
    refine ⟨_, _, true, rfl, hrep.unsized (hsize' lo) fun hs => ?_, htop, rfl, fun _ _ => rfl,
      fun hc => absurd hc (by simp)⟩
    -- the root is alone on its level
    obtain ⟨rfl, rfl⟩ := h.ok.inj _ _ _ _ _ ha (hroota ▸ h.root)
    obtain ⟨y, hy, hne⟩ := hs
    exact absurd (htop y hy) hne
  · have hfull := hshared hroota
    have hlt := h.lt_top htop ha hroota
    rw [if_neg hroota]
    by_cases henough : minEntries ≤ n - 1
    · rw [if_pos henough]
      refine ⟨_, _, _, rfl, hrep.unsized (hsize' lo) fun _ => by omega, htop, rfl, fun _ _ => rfl,
        fun hc => ⟨by omega, ?_⟩⟩
      split_ifs at hc
      exact (hfound.resolve_left fun hf => absurd (hf.1.symm.trans hc) (by simp)).2.2
    · obtain ⟨f, rfl, hremoves, hremoves'⟩ := hfuel hlt
      have hthin : l ≠ 0 → n' < minEntries := fun hl => by
        rcases hfound with ⟨-, hn⟩ | ⟨-, -, habsent⟩
        · omega
        · obtain ⟨i, hi, hkey⟩ := hinner hl
          exact absurd hkey (habsent i hi)
      obtain ⟨t', S', heq', hrep', htop', hmap', hsame'⟩ :=
        hrep.rebalance_thin (htakes.removals hremovals) (htakes.complete hcomplete) hsize' halloc
          hnull htop hlt ha hk (by omega) hthin hremoves hremoves'
      rw [if_neg henough, heq']
      exact ⟨t', S', true, rfl, hrep', htop', hmap', hsame', fun hc => absurd hc (by simp)⟩

theorem Rep.removePage_root (h : Rep alloc t S σ) (hremovals : σ.removals)
    (hcomplete : σ.Complete (l + 1)) (htop : S.Top) (hl : S.top = l + 1)
    (hheap : t.heap t.root = some p) (hp : S.NodeOk σ (l + 1) 0 p 1) (fuel : ℕ) :
    ∃ t', removePage alloc (fuel + 1) t t.root (p.key 0) false = some (t', true) ∧
      Rep alloc t' S.shrink (σ.lacking (l + 1) (p.key 0)) ∧
      S.SameBelow S.shrink (l + 1) ∧ S.shrink.Headed l (p.key 0) := by
  obtain ⟨p', found, n', heq, -⟩ := Page.removeKey_spec hp.sound hp.stale (p.key 0)
  have hlast : p.siblingPtr = 0 := hp.last_of_top htop hl
  refine ⟨_, ?_, h.shrinkRoot hremovals hcomplete htop hl hp p'⟩
  unfold removePage
  rw [if_neg (by simp), hheap, Option.bind_some, Page.count_sound hp.sound, Option.bind_some, heq,
    Option.bind_some, if_pos rfl, if_pos ⟨by rw [hp.level]; omega, rfl, hlast⟩]

/-- **`Page::remove` above the leaves**, by induction on the fuel: a page of level `l + 1` is
taken out of its own parent with two units less. -/
theorem removePage_removes (halloc : Function.Injective alloc) (hnull : ∀ i, alloc i ≠ 0) :
    ∀ fuel l top, 2 * (top - l) ≤ fuel + 1 →
      Removes alloc l top fun t b x => removePage alloc fuel t b x false := by
  intro fuel
  induction fuel using Nat.strong_induction_on with
  | h fuel ih =>
    intro l top hfuel t S σ z b x hremovals hcomplete h htop heq hb hx hmem hnot
    subst heq
    have hl : l + 1 ≤ S.top := h.ok.above _ _ ⟨b, hb⟩
    obtain ⟨fuel, rfl⟩ : ∃ g, fuel = g + 1 := ⟨fuel - 1, by omega⟩
    obtain ⟨p, n, hheap, hp⟩ := h.page _ _ _ hb
    have hxz : x ≠ z := fun heq => hnot (heq ▸ hx.1)
    obtain ⟨i, hi, hkey⟩ :=
      (hp.fence_below (fun y => (hcomplete _ le_rfl y).1) hmem hx).resolve_left hxz
    by_cases hroot : t.root = b ∧ n = 1
    · obtain ⟨rfl, rfl⟩ := hroot
      obtain ⟨htopl, rfl⟩ := h.ok.inj _ _ _ _ _ hb h.root
      obtain rfl : i = 0 := by omega
      subst hkey
      obtain ⟨t', heq, hrep, hsame, hhead⟩ :=
        h.removePage_root hremovals hcomplete htop htopl.symm hheap hp fuel
      exact ⟨t', _, true, heq, hrep, rfl, hsame, hhead⟩
    · obtain ⟨t', S', found, heq, hrep, htop', hmap, hsame, -⟩ :=
        h.removePage_takes hremovals hcomplete htop halloc hnull
          (Shape.takes_inner h.ok hmem hnot) hb hx hheap hp (fun _ => ⟨i, hi, hkey⟩)
          (fun hb' _ hn => hroot ⟨hb', hn⟩) fuel (fun hlt => by
            obtain ⟨f, rfl⟩ : ∃ f, fuel = f + 1 := ⟨fuel - 1, by omega⟩
            exact ⟨f, rfl, ih (f + 1) (by omega) (l + 1) S.top (by omega),
              ih f (by omega) (l + 1) S.top (by omega)⟩)
      exact ⟨t', S', found, heq, hrep, hmap, hsame, Or.inl htop'⟩

end RemovePage

end McfKv.Btree
