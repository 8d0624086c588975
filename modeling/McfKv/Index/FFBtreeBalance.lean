import McfKv.Index.FFBtreeStructure
import McfKv.Index.FFBtreeRemove

/-!
# Merging and redistributing siblings (`multi-cuckoo-index/ff_btreee.h`, `ff_btreee.cc`)

When `Page::remove` gets to the merge or the redistribution, the key between the page and its
left sibling has been taken out of the level above. The fence of the page is then pending
there, just as the fence of a new page is in the middle of an insertion.

* `Shape.drop` takes the fence out of the shape; it is the inverse of the cut that a split
  makes, so that the lemmas about cuts serve here, too.
* `Joined` is the tree of the smaller shape in which two pages stand in the place of one.
  `Joined.merge` puts their entries into the left one.
* `Joined.divide` cuts the shape again, at the key that divides the entries anew, and
  `Joined.link` leaves the rest to `setNewRoot` or `InsertInternal`.

`Rep.balance_spec` is the result: whichever of the three ways the entries go, the tree is in
order afterwards and has the same map. One of the two pages may have too few entries before;
how many it has is known, and the sizes of the new pages follow.
-/

namespace McfKv.Btree

open Fence

/-! ## A fence is taken out -/

namespace Shape

variable {S : Shape} {σ τ : Slack} {l x w : ℕ} {a : Addr}

/-- The shape without the page at fence `x` of a level. -/
def drop (S : Shape) (l x : ℕ) : Shape :=
  { S with addr := fun l' z => if l' = l ∧ z = x then none else S.addr l' z }

theorem drop_addr_self : (S.drop l x).addr l x = none := if_pos ⟨rfl, rfl⟩

theorem drop_addr_of_ne {l' z : ℕ} (h : (l', z) ≠ (l, x)) : (S.drop l x).addr l' z = S.addr l' z :=
  if_neg fun hc => h (by rw [hc.1, hc.2])

theorem drop_addr_level {l' : ℕ} (h : l' ≠ l) : (S.drop l x).addr l' = S.addr l' := by
  funext z
  exact drop_addr_of_ne fun hc => h (congrArg Prod.fst hc)

theorem addr_of_drop {l' z : ℕ} {b : Addr} (h : (S.drop l x).addr l' z = some b) :
    (l', z) ≠ (l, x) ∧ S.addr l' z = some b := by
  have hne : (l', z) ≠ (l, x) := fun heq => by
    obtain ⟨rfl, rfl⟩ := Prod.mk.inj heq
    rw [drop_addr_self] at h
    exact absurd h (by simp)
  exact ⟨hne, (drop_addr_of_ne hne).symm.trans h⟩

theorem mem_drop_fences {l' z : ℕ} :
    z ∈ (S.drop l x).fences l' ↔ z ∈ S.fences l' ∧ (l', z) ≠ (l, x) := by
  constructor
  · rintro ⟨b, hb⟩
    obtain ⟨hne, hb⟩ := addr_of_drop hb
    exact ⟨⟨b, hb⟩, hne⟩
  · rintro ⟨⟨b, hb⟩, hne⟩
    exact ⟨b, (drop_addr_of_ne hne).trans hb⟩

theorem cut_drop (h : S.addr l x = some a) : (S.drop l x).cut l x a = S := by
  have haddr : ((S.drop l x).cut l x a).addr = S.addr := by
    funext l' z
    by_cases hz : (l', z) = (l, x)
    · obtain ⟨rfl, rfl⟩ := Prod.mk.inj hz
      rw [cut_addr_self, h]
    · rw [cut_addr_of_ne hz, drop_addr_of_ne hz]
  exact congrArg (fun f => ({ S with addr := f } : Shape)) haddr

theorem drop_cutAt (hok : S.Ok σ) (hw : w ∈ S.fences l) (hnext : IsNext (S.fences l) w x) :
    (S.drop l x).CutAt l w x where
  mem := mem_drop_fences.mpr ⟨hw, fun hc => hnext.2.1.ne (Prod.mk.inj hc).2⟩
  lt := hnext.2.1
  before y hy hlt := by
    obtain ⟨hy, hne⟩ := mem_drop_fences.mp hy
    exact lt_of_le_of_ne (hnext.2.2 y hy hlt) fun heq => hne (by rw [heq])
  below l' hl' := by
    subst hl'
    exact mem_drop_fences.mpr ⟨hok.nested l' hnext.1, fun hc =>
      absurd (Prod.mk.inj hc).1 (Nat.lt_succ_self l').ne⟩

theorem drop_ok (hok : S.Ok (τ.lacking (l + 1) x)) (hcomplete : τ.Complete (l + 1)) (hx : x ≠ 0) :
    (S.drop l x).Ok τ where
  zero l' hl' := mem_drop_fences.mpr ⟨hok.zero l' hl', fun hc => hx (Prod.mk.inj hc).2.symm⟩
  above l' z hz := hok.above l' z (mem_drop_fences.mp hz).1
  nested l' z hz := by
    have hmem := (mem_drop_fences.mp hz).1
    refine mem_drop_fences.mpr ⟨hok.nested l' hmem, fun hc => ?_⟩
    -- the level above has no page at the fence
    obtain ⟨rfl, rfl⟩ := Prod.mk.inj hc
    obtain ⟨_, -, -, hnot⟩ := hok.pending _ _ Slack.lacking_pend_self
    exact hnot hmem
  inj l₁ x₁ l₂ x₂ b h₁ h₂ := hok.inj _ _ _ _ b (addr_of_drop h₁).2 (addr_of_drop h₂).2
  nonnull l' z b hb := hok.nonnull l' z b (addr_of_drop hb).2
  pending l' z hz := by
    obtain ⟨l'', rfl, hmem, hnot⟩ := hok.pending l' z (Or.inr hz)
    refine ⟨l'', rfl, mem_drop_fences.mpr ⟨hmem, fun hc => ?_⟩,
      fun hmem' => hnot (mem_drop_fences.mp hmem').1⟩
    obtain ⟨rfl, rfl⟩ := Prod.mk.inj hc
    exact (hcomplete _ le_rfl z).1 hz

theorem IsSibling.addr_next (h : S.IsSibling l w a) (hnext : IsNext (S.fences l) w x) :
    S.addr l x = some a := by
  rcases h with ⟨hlast, -⟩ | ⟨y, hy, haddr⟩
  · exact absurd hnext hlast.not_isNext
  · rwa [hnext.unique hy]

theorem IsSibling.drop (hnext : IsNext (S.fences l) w x) (h : S.IsSibling l x a) :
    (S.drop l x).IsSibling l w a := by
  rcases h with ⟨hlast, h0⟩ | ⟨y, hy, haddr⟩
  · refine Or.inl ⟨fun z hz => ?_, h0⟩
    obtain ⟨hz, hne⟩ := mem_drop_fences.mp hz
    by_contra hlt
    have heq : z = x := le_antisymm (hlast z hz) (hnext.2.2 z hz (not_le.mp hlt))
    exact hne (by rw [heq])
  · have hyx : (l, y) ≠ (l, x) := fun hc => hy.2.1.ne' (Prod.mk.inj hc).2
    refine Or.inr ⟨y, ⟨mem_drop_fences.mpr ⟨hy.1, hyx⟩, hnext.2.1.trans hy.2.1, fun z hz hlt => ?_⟩,
      (drop_addr_of_ne hyx).trans haddr⟩
    obtain ⟨hz, hne⟩ := mem_drop_fences.mp hz
    refine hy.2.2 z hz (lt_of_le_of_ne (hnext.2.2 z hz hlt) fun heq => hne (by rw [heq]))

/-- The top level is one page, or it consists of the pages at `0` and `x` of level `l`. -/
def Headed (S : Shape) (l x : ℕ) : Prop :=
  S.Top ∨ (S.top = l ∧ ∀ y ∈ S.fences l, y = 0 ∨ y = x)

theorem Headed.top_drop (h : S.Headed l x) : (S.drop l x).Top := by
  intro z hz
  change z ∈ (S.drop l x).fences S.top at hz
  obtain ⟨hmem, hne⟩ := mem_drop_fences.mp hz
  rcases h with htop | ⟨rfl, honly⟩
  · exact htop z hmem
  · exact (honly z hmem).resolve_right fun heq => hne (by rw [heq])

theorem NodeOk.resize {l' lo' lo c : ℕ} {p : Page} {n : ℕ}
    (h : S.NodeOk (σ.sized l lo c) l' lo' p n) (hne : (l', lo') ≠ (l, lo)) :
    S.NodeOk σ l' lo' p n :=
  { h with
    full := fun hs hnone => h.full hs ((Slack.sized_size_of_ne hne).trans hnone)
    size := fun c' hc' => h.size c' ((Slack.sized_size_of_ne hne).trans hc') }

end Shape

/-! ## Two siblings that the level above does not divide -/

/-- The tree `t` has the pages of the shape `T`, but for the page at fence `w` of level `l`:
its entries are divided between the page `q` there and the page `p`, at the key `x`. -/
structure Joined (alloc : ℕ → Addr) (t : Tree) (T : Shape) (τ : Slack) (l w : ℕ) (left : Addr)
    (q p : Page) (nl n x : ℕ) : Prop where
  ok : T.Ok τ
  addr : T.addr l w = some left
  root : T.addr T.top 0 = some t.root
  height_le : T.top + 1 ≤ t.height
  other : ∀ l' lo' a', T.addr l' lo' = some a' → (l', lo') ≠ (l, w) →
    ∃ p n, t.heap a' = some p ∧ T.NodeOk τ l' lo' p n
  used : ∀ l' lo' a', T.addr l' lo' = some a' → ∃ i < t.next, alloc i = a'
  siblings : q.Siblings p nl n x
  level : q.level = l
  leaf : l = 0 ↔ q.leftmostPtr = 0
  inner : l ≠ 0 → T.contents l w = some q.leftmostPtr
  sibling : T.IsSibling l w p.siblingPtr
  has : ∀ z y, T.Entry τ l w z y ↔ q.Joint p nl n x z y

section Joined

variable {alloc : ℕ → Addr} {t : Tree} {S T : Shape} {σ τ : Slack} {l w x lo c : ℕ}
  {left a : Addr} {q p : Page} {nl n : ℕ}

theorem Rep.siblings (h : Rep alloc t S σ) (hnext : IsNext (S.fences l) w x)
    (hq : S.NodeOk σ l w q nl) (hp : S.NodeOk σ l x p n) : q.Siblings p nl n x := by
  have hleaf := h.leftmost_eq_zero_iff hp
  have habove : ∀ i < n, x ≤ p.key i ∧ (l ≠ 0 → p.key i ≠ x) := fun i hi => by
    have hentry := (hp.has _ _).mp ⟨i, hi, rfl, rfl⟩
    exact ⟨hentry.2.1.2.1, hentry.2.2.1⟩
  refine ⟨hq.sound, hp.sound, (h.leftmost_eq_zero_iff hq).trans hleaf.symm,
    hq.level.trans hp.level.symm, fun i hi => ?_, fun i hi => (habove i hi).1, fun hne i hi => ?_⟩
  · exact ((hq.has _ _).mp ⟨i, hi, rfl, rfl⟩).2.1.lt_of_lt hnext.1 hnext.2.1
  · have hl : l ≠ 0 := fun h0 => hne (hleaf.mpr h0)
    exact lt_of_le_of_ne (habove i hi).1 ((habove i hi).2 hl).symm

theorem Shape.drop_contents (ha : S.addr l x = some a) (z : ℕ) :
    (S.drop l x).contents l z = S.contents l z := by
  have hne : (l, z) ≠ (l + 1, x) := fun hc => absurd (congrArg Prod.fst hc) (by simp)
  rw [← Shape.cut_contents_of_ne (b := a) hne, Shape.cut_drop ha]

theorem Rep.entry_drop (h : Rep alloc t S σ) (hpend : ∀ z, σ.pend l z ↔ τ.pend l z)
    (hnext : IsNext (S.fences l) w x) (hw : w ∈ S.fences l) (ha : S.addr l x = some a)
    (hq : S.NodeOk σ l w q nl) (hp : S.NodeOk σ l x p n) (z : ℕ) (y : Addr) :
    (S.drop l x).Entry τ l w z y ↔ q.Joint p nl n x z y := by
  have hcut := Shape.drop_cutAt h.ok hw hnext
  have hleaf := h.leftmost_eq_zero_iff hp
  have hcongr : ∀ lo, S.Entry σ l lo z y ↔ S.Entry (τ.lacking (l + 1) x) l lo z y := fun lo => by
    have hne : (l, z) ≠ (l + 1, x) := fun hc => absurd (congrArg Prod.fst hc) (by simp)
    unfold Shape.Entry
    rw [hpend, Slack.lacking_pend_of_ne hne]
  have hentry_left := hcut.entry_left (b := a) (σ := τ) z y
  have hentry_right := hcut.entry_right (b := a) (σ := τ) z y
  rw [Shape.cut_drop ha] at hentry_left hentry_right
  unfold Page.Joint
  rw [hq.has, hp.has, hcongr, hcongr, hentry_left, hentry_right]
  constructor
  · intro hentry
    rcases Nat.lt_or_ge z x with hzx | hzx
    · exact Or.inl ⟨hentry, hzx⟩
    · by_cases hmid : l ≠ 0 ∧ z = x
      · obtain ⟨hl, rfl⟩ := hmid
        have hy : some y = some p.leftmostPtr :=
          hentry.1.symm.trans ((Shape.drop_contents ha z).trans (hp.inner hl))
        exact Or.inr (Or.inr ⟨fun h0 => hl (hleaf.mp h0), rfl, Option.some.inj hy⟩)
      · exact Or.inr (Or.inl ⟨hentry, hzx, fun hl heq => hmid ⟨hl, heq⟩⟩)
  · rintro (⟨hentry, -⟩ | ⟨hentry, -⟩ | ⟨hne, rfl, rfl⟩)
    · exact hentry
    · exact hentry
    · -- the leftmost child of the right page
      have hl : l ≠ 0 := fun h0 => hne (hleaf.mpr h0)
      refine ⟨(Shape.drop_contents ha z).trans (hp.inner hl), ⟨hcut.mem, hcut.lt.le, ?_⟩,
        fun _ => hcut.lt.ne', fun hz => ?_⟩
      · intro y' hy' hle
        by_contra hlt
        exact absurd (hcut.before y' hy' (not_le.mp hlt)) (not_lt.mpr hle)
      · obtain ⟨l', -, -, hnot⟩ := h.ok.pending l z ((hpend z).mpr hz)
        exact hnot ⟨a, ha⟩

section

variable (h : Rep alloc t S ((τ.sized l lo c).lacking (l + 1) x))
  (hnext : IsNext (S.fences l) w x) (hlo : lo = w ∨ lo = x) (hleft : S.addr l w = some left)
  (hq : S.NodeOk ((τ.sized l lo c).lacking (l + 1) x) l w q nl)
  (hp : S.NodeOk ((τ.sized l lo c).lacking (l + 1) x) l x p n)

include h hnext hlo hleft hq hp

/-- **A page whose separator has been removed from the level above** and its left sibling. -/
theorem Rep.joined (hcomplete : τ.Complete (l + 1)) (ha : S.addr l x = some a) :
    Joined alloc t (S.drop l x) τ l w left q p nl n x := by
  have hcut := Shape.drop_cutAt h.ok ⟨left, hleft⟩ hnext
  have hx : x ≠ 0 := Nat.ne_zero_of_lt hnext.2.1
  have hok : S.Ok (τ.lacking (l + 1) x) :=
    ⟨h.ok.zero, h.ok.above, h.ok.nested, h.ok.inj, h.ok.nonnull, h.ok.pending⟩
  have hdrop := Shape.drop_ok hok hcomplete hx
  have hwx : (l, w) ≠ (l, x) := fun hc => hnext.2.1.ne (Prod.mk.inj hc).2
  have hpend : ∀ z, ((τ.sized l lo c).lacking (l + 1) x).pend l z ↔ τ.pend l z := fun z =>
    Slack.lacking_pend_of_ne fun hc => absurd (congrArg Prod.fst hc) (by simp)
  refine ⟨hdrop, (Shape.drop_addr_of_ne hwx).trans hleft, ?_, h.height_le,
    fun l' lo' a' ha' hne => ?_, fun l' lo' a' ha' => h.used l' lo' a' (Shape.addr_of_drop ha').2,
    h.siblings hnext hq hp, hq.level, (h.leftmost_eq_zero_iff hq).symm,
    fun hl => (Shape.drop_contents ha w).trans (hq.inner hl), hp.sibling.drop hnext,
    h.entry_drop hpend hnext ⟨left, hleft⟩ ha hq hp⟩
  · exact (Shape.drop_addr_of_ne fun hc => hx (Prod.mk.inj hc).2.symm).trans h.root
  · obtain ⟨hnex, hold⟩ := Shape.addr_of_drop ha'
    obtain ⟨p', n', hheap, hp'⟩ := h.page l' lo' a' hold
    have hiff := hcut.node_other (b := a) (σ := τ.sized l lo c) (p := p') (n := n')
      (hdrop.nested l) ⟨a', ha'⟩ hne
    rw [Shape.cut_drop ha] at hiff
    refine ⟨p', n', hheap, (hiff.mp hp').resize ?_⟩
    rcases hlo with rfl | rfl
    · exact hne
    · exact hnex

theorem Rep.sizes (hsize : ∀ z, τ.size l z = none) :
    (nl = c ∧ minEntries ≤ n) ∨ (n = c ∧ minEntries ≤ nl) := by
  have hne : w ≠ x := hnext.2.1.ne
  rcases hlo with rfl | rfl
  · refine Or.inl ⟨hq.size c Slack.sized_size_self, hp.full ⟨lo, ⟨left, hleft⟩, hne⟩ ?_⟩
    exact (Slack.sized_size_of_ne fun hc => hne (Prod.mk.inj hc).2.symm).trans (hsize x)
  · refine Or.inr ⟨hp.size c Slack.sized_size_self, hq.full ⟨lo, hnext.1, hne.symm⟩ ?_⟩
    exact (Slack.sized_size_of_ne fun hc => hne (Prod.mk.inj hc).2).trans (hsize w)

end

section

variable (h : Joined alloc t T τ l w left q p nl n x)

include h

theorem Joined.leaf_right : l = 0 ↔ p.leftmostPtr = 0 :=
  h.leaf.trans h.siblings.leaf

theorem Joined.addr_ne {l' lo' : ℕ} {a' : Addr} (ha' : T.addr l' lo' = some a')
    (hne : (l', lo') ≠ (l, w)) : a' ≠ left := by
  rintro rfl
  obtain ⟨rfl, rfl⟩ := h.ok.inj _ _ _ _ _ ha' h.addr
  exact hne rfl

/-- **The merge** is the page of the shape. -/
theorem Joined.merge (hremovals : τ.removals) (hsize : ∀ z, τ.size l z = none)
    (hlen : nl + ((p.separator x).length + n) ≤ cardinality - 1)
    (hfull : minEntries ≤ nl + ((p.separator x).length + n)) :
    Rep alloc (t.put left (merged q p nl n x)) T τ := by
  obtain ⟨hsound, hleftmost, hsibling, hlevel, hhas⟩ := merged_spec h.siblings hlen
  have hpos : 0 < minEntries := by decide
  have hnode : T.NodeOk τ l w (merged q p nl n x) (nl + ((p.separator x).length + n)) := by
    refine ⟨hsound, absurd hremovals, hlevel.trans h.level, fun _ => hpos.trans_le hfull,
      fun h0 => absurd hfull (by omega), fun hl => hleftmost.trans (h.leaf.mp hl),
      fun hl => hleftmost ▸ h.inner hl, hsibling ▸ h.sibling, fun z y => ?_, fun _ _ => hfull,
      fun c hc => absurd ((hsize w).symm.trans hc) (by simp)⟩
    rw [hhas, h.has]
  refine ⟨h.ok, h.root, h.height_le, absurd hremovals, fun l' lo' a' ha' => ?_, h.used⟩
  by_cases hne : (l', lo') = (l, w)
  · obtain ⟨rfl, rfl⟩ := Prod.mk.inj hne
    obtain rfl : a' = left := Option.some.inj (ha'.symm.trans h.addr)
    exact ⟨_, _, Tree.put_heap_self .., hnode⟩
  · obtain ⟨p', n', hheap, hp'⟩ := h.other l' lo' a' ha' hne
    exact ⟨p', n', (Tree.put_heap_of_ne _ (h.addr_ne ha' hne) _).trans hheap, hp'⟩

end

section Divide

variable {b : Addr} {nl' nr' : ℕ} {r : Redistributed}

section

variable (h : Joined alloc t T τ l w left q p nl n x)

include h

theorem Joined.halves (hremovals : τ.removals) (hr : IsDivided q p nl n x b nl' nr' r) :
    T.Halves τ l w r.parentKey b r.left r.right nl' nr' := by
  have hl : l ≠ 0 ↔ p.leftmostPtr ≠ 0 := not_congr h.leaf_right
  refine ⟨hr.left_full, hr.left_sound, absurd hremovals,
    hr.left_level.trans (h.siblings.level.symm.trans h.level),
    fun hl => hr.left_leftmost.trans (h.leaf.mp hl), fun hl => hr.left_leftmost ▸ h.inner hl,
    hr.left_sibling, fun z y => ?_, hr.right_full, hr.right_sound, absurd hremovals,
    hr.right_level.trans (h.siblings.level.symm.trans h.level),
    fun h0 => hr.right_leaf (h.leaf_right.mp h0), fun h0 => ?_, hr.right_sibling ▸ h.sibling,
    fun z y => ?_⟩
  · rw [hr.left_has, h.has]
  · exact ((h.has _ _).mpr (hr.right_inner (hl.mp h0))).1
  · rw [hr.right_has, h.has, hl]

theorem Joined.cutAt (hr : IsDivided q p nl n x b nl' nr' r) : T.CutAt l w r.parentKey := by
  obtain ⟨y, hy⟩ := hr.parentKey
  have hentry := (h.has _ _).mpr hy
  refine ⟨⟨left, h.addr⟩, ?_, fun y' hy' hlt => hentry.2.1.lt_of_lt hy' hlt, fun l' hl' => ?_⟩
  · -- the left page has an entry
    have hpos : 0 < nl' := Nat.lt_of_lt_of_le (by decide) hr.left_full
    obtain ⟨hfirst, hlt⟩ := (hr.left_has _ _).mp ⟨0, hpos, rfl, rfl⟩
    exact ((h.has _ _).mpr hfirst).2.1.2.1.trans_lt hlt
  · subst hl'
    exact ⟨y, hentry.1⟩

variable (hremovals : τ.removals) (hsize : ∀ z, τ.size l z = none)
  (hr : IsDivided q p nl n x b nl' nr' r) (hb0 : b ≠ 0) (hfresh : ∀ l' z, T.addr l' z ≠ some b)
  {u : Tree} (hroot : u.root = t.root) (hheight : u.height = t.height)
  (hheap : u.heap = ((t.put b r.right).put left r.left).heap) (hnext : t.next ≤ u.next)
  (hb : ∃ i < u.next, alloc i = b)

include hremovals hsize hr hb0 hfresh hroot hheight hheap hnext hb

/-- **The redistribution** leaves the right page pending on the level above. -/
theorem Joined.divide : Rep alloc u (T.cut l r.parentKey b) (τ.lacking (l + 1) r.parentKey) := by
  obtain ⟨y, hy⟩ := hr.parentKey
  refine rep_cut h.ok hsize ((h.has _ _).mpr hy).2.2.2 (h.cutAt hr) h.addr hb0 hfresh
    (h.halves hremovals hr) (hroot ▸ h.root) (hheight ▸ h.height_le) (absurd hremovals) hheap
    h.other (fun l' lo' a' ha' => ?_) hb
  obtain ⟨i, hi, heq⟩ := h.used l' lo' a' ha'
  exact ⟨i, hi.trans_le hnext, heq⟩

/-- **The end of a redistribution**: a new root, or the new key in the level above. -/
theorem Joined.link (hcomplete : τ.Complete (l + 1)) (htop : T.Top)
    (halloc : Function.Injective alloc) (hnull : ∀ i, alloc i ≠ 0) :
    ∃ t' S', linkSiblings alloc u left r.parentKey b (l + 1) = some t' ∧ Rep alloc t' S' τ ∧
      S'.Top ∧ S'.map = T.map ∧ T.SameBelow S' l := by
  have hrep := h.divide hremovals hsize hr hb0 hfresh hroot hheight hheap hnext hb
  have hcut := h.cutAt hr
  unfold linkSiblings
  by_cases hleft : left = u.root
  · obtain ⟨rfl, rfl⟩ := h.ok.inj _ _ _ _ _ h.addr ((hleft.trans hroot) ▸ h.root)
    have honly : ∀ z ∈ (T.cut T.top r.parentKey b).fences T.top, z = 0 ∨ z = r.parentKey := by
      intro z hz
      rw [Shape.cut_fences_self] at hz
      rcases hz with rfl | hz
      · exact Or.inr rfl
      · exact Or.inl (htop z hz)
    have hgrow := hrep.growRoot hcomplete halloc hnull (Nat.ne_zero_of_lt hcut.lt)
      Shape.cut_addr_self honly
    rw [if_pos hleft, hleft]
    refine ⟨_, _, rfl, hgrow.1, hgrow.2, rfl, fun l' hl' => ?_⟩
    have hle : l' ≤ (T.cut T.top r.parentKey b).top := hl'.le
    rw [Shape.grow_addr_of_le _ hle, Shape.cut_addr_level hl'.ne]
  · have hlt : l < T.top := by
      refine lt_of_le_of_ne (h.ok.above l w ⟨left, h.addr⟩) ?_
      rintro rfl
      obtain rfl := htop w ⟨left, h.addr⟩
      exact hleft ((Option.some.inj (h.addr.symm.trans h.root)).trans hroot.symm)
    have hfuel : T.top - l ≤ u.height := by
      have := h.height_le
      omega
    obtain ⟨t', S', heq, hrep', htop', hmap, hsame⟩ :=
      insertInternal_settles halloc hnull u.height l T.top hfuel u _ τ r.parentKey b hcomplete hrep
        (htop.cut hlt _ _) rfl hlt Shape.cut_addr_self
    rw [if_neg hleft]
    refine ⟨t', S', heq, hrep', htop', hmap, fun l' hl' => ?_⟩
    rw [hsame l' (by omega), Shape.cut_addr_level hl'.ne]

end

end Divide

/-- **The merge or redistribution** of a page and its left sibling, one of which has too few
entries. Above the leaves it has one entry less than it should have. -/
theorem Rep.balance_spec (h : Rep alloc t S ((τ.sized l lo c).lacking (l + 1) x))
    (hremovals : τ.removals) (hcomplete : τ.Complete (l + 1)) (hsize : ∀ z, τ.size l z = none)
    (halloc : Function.Injective alloc) (hnull : ∀ i, alloc i ≠ 0)
    (hnext : IsNext (S.fences l) w x) (hlo : lo = w ∨ lo = x) (hleft : S.addr l w = some left)
    (ha : S.addr l x = some a) (hhead : S.Headed l x) (hc : c ≤ minEntries)
    (hinner : l ≠ 0 → c < minEntries) :
    ∃ t' S', balance alloc t a left x = some t' ∧ Rep alloc t' S' τ ∧ S'.Top ∧ S'.map = S.map ∧
      S.SameBelow S' l := by
  have hcard : cardinality = 30 := rfl
  have hmin : minEntries = 14 := rfl
  obtain ⟨p, n, hheapp, hp⟩ := h.page l x a ha
  obtain ⟨q, nl, hheapq, hq⟩ := h.page l w left hleft
  have hsizes := h.sizes hnext hlo hleft hq hp hsize
  have hj := h.joined hnext hlo hleft hq hp hcomplete ha
  have htop : (S.drop l x).Top := hhead.top_drop
  have hn : n ≤ cardinality - 1 := hp.sound.le
  have hnl : nl ≤ cardinality - 1 := hq.sound.le
  have hsame : S.SameBelow (S.drop l x) l := fun l' hl' => Shape.drop_addr_level hl'.ne
  obtain ⟨hone, hsep⟩ : (p.separator x).length ≤ 1 ∧ c + (p.separator x).length ≤ minEntries := by
    rw [p.length_separator x]
    split_ifs with h0
    · exact ⟨Nat.zero_le 1, hc⟩
    · exact ⟨le_rfl, hinner fun hl => h0 (hj.leaf_right.mp hl)⟩
  unfold balance
  rw [hheapp, Option.bind_some, Page.count_sound hp.sound, Option.bind_some, hheapq,
    Option.bind_some, Page.count_sound hq.sound, Option.bind_some, ← p.length_separator x, hp.level]
  dsimp only
  split_ifs with htotal hlt
  · -- from left to right; the page stays where it is
    have hsib : q.siblingPtr = a :=
      Option.some.inj ((hq.sibling.addr_next hnext).symm.trans ha)
    have hr := fromLeft_spec hj.siblings
      (show (n + nl + (p.separator x).length) / 2 < nl by omega) hsib (by omega) (by omega)
      (by omega)
    obtain ⟨t', S', heq, hrep, htop', hmap, hsame'⟩ :=
      hj.link hremovals hsize hr (h.ok.nonnull l x a ha) (fun l' z hz => by
          obtain ⟨hne, hz⟩ := Shape.addr_of_drop hz
          obtain ⟨rfl, rfl⟩ := h.ok.inj _ _ _ _ _ hz ha
          exact hne rfl)
        (u := (t.put a _).put left _) rfl rfl rfl le_rfl (h.used l x a ha) hcomplete htop halloc hnull
    exact ⟨t', S', heq, hrep, htop', hmap, fun l' hl' => (hsame' l' hl').trans (hsame l' hl')⟩
  · -- from right to left, with a new right page
    obtain ⟨r, heqr, hr⟩ := toLeft_spec hj.siblings
      (show n - (n + nl + (p.separator x).length) / 2 < n by omega) (by omega) (by omega)
      (by omega) (alloc t.next) fun _ => by omega
    rw [heqr, Option.bind_some]
    obtain ⟨t', S', heq, hrep, htop', hmap, hsame'⟩ :=
      hj.link hremovals hsize hr (hnull _)
        (fun l' z hz => h.fresh halloc le_rfl l' z (Shape.addr_of_drop hz).2)
        (u := { (t.put (alloc t.next) r.right).put left r.left with next := t.next + 1 })
        rfl rfl rfl (Nat.le_succ _) ⟨t.next, Nat.lt_succ_self _, rfl⟩ hcomplete htop halloc hnull
    exact ⟨t', S', heq, hrep, htop', hmap, fun l' hl' => (hsame' l' hl').trans (hsame l' hl')⟩
  · -- the entries fit into one page
    have hstop : p.countUp cardinality 0 = some n :=
      Page.countUp_sound hp.sound (Nat.zero_le n) (by omega)
    rw [hstop, Option.map_some]
    exact ⟨_, _, rfl, hj.merge hremovals hsize (by omega) (by omega), htop, rfl, hsame⟩

end Joined

end McfKv.Btree
