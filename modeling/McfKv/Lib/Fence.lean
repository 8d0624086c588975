import Mathlib.Order.Basic
import Mathlib.Data.Set.Insert
import Mathlib.Data.Set.Finite.Lemmas

/-!
# Fences

A set of *fences* in a linear order cuts the order into half-open intervals, each of
which starts at a fence and ends in front of the next one. This is how the pages of one
level of a search tree divide the keys.

* `Covers S k lo` — the interval that starts at `lo` contains `k`.
* `IsNext S lo y` — the interval that starts at `lo` ends in front of `y`.
* `IsLast S lo` — the interval that starts at `lo` has no end.

* `onward S lo` — the fences from `lo` on.

`Covers.refine` is the descent rule, from a coarse set of fences to a finer one, and
`Covers.trans` goes back up. The `onward` lemmas take one step along the fences. The
`insert` lemmas say what happens when one interval is cut in two.
-/

namespace McfKv.Fence

variable {K : Type*} [LinearOrder K] {S T : Set K} {k lo s y z : K}

/-- The interval that starts at `lo` contains `k`. -/
def Covers (S : Set K) (k lo : K) : Prop := lo ∈ S ∧ lo ≤ k ∧ ∀ y ∈ S, y ≤ k → y ≤ lo

/-- The fence after `lo` is `y`. -/
def IsNext (S : Set K) (lo y : K) : Prop := y ∈ S ∧ lo < y ∧ ∀ z ∈ S, lo < z → y ≤ z

/-- There is no fence after `lo`. -/
def IsLast (S : Set K) (lo : K) : Prop := ∀ y ∈ S, y ≤ lo

theorem Covers.lt_of_lt (h : Covers S k lo) (hy : y ∈ S) (hlo : lo < y) : k < y := by
  by_contra hle
  exact absurd (h.2.2 y hy (not_lt.mp hle)) (not_le.mpr hlo)

theorem Covers.unique {lo' : K} (h : Covers S k lo) (h' : Covers S k lo') : lo = lo' :=
  le_antisymm (h'.2.2 lo h.1 h.2.1) (h.2.2 lo' h'.1 h'.2.1)

theorem Covers.of_le (h : Covers S k lo) (hlo : lo ≤ z) (hz : z ≤ k) : Covers S z lo :=
  ⟨h.1, hlo, fun y hy hyz => h.2.2 y hy (hyz.trans hz)⟩

theorem IsLast.covers (h : IsLast S lo) (hlo : lo ∈ S) (hk : lo ≤ k) : Covers S k lo :=
  ⟨hlo, hk, fun y hy _ => h y hy⟩

theorem IsNext.covers (h : IsNext S lo y) (hlo : lo ∈ S) (hk : lo ≤ k) (hky : k < y) :
    Covers S k lo := by
  refine ⟨hlo, hk, fun z hz hzk => ?_⟩
  by_contra hlt
  exact absurd (h.2.2 z hz (not_le.mp hlt)) (not_le.mpr (hzk.trans_lt hky))

theorem IsNext.unique {y' : K} (h : IsNext S lo y) (h' : IsNext S lo y') : y = y' :=
  le_antisymm (h.2.2 y' h'.1 h'.2.1) (h'.2.2 y h.1 h.2.1)

theorem IsNext.prev_unique {lo' : K} (h : IsNext S lo y) (h' : IsNext S lo' y) (hlo : lo ∈ S)
    (hlo' : lo' ∈ S) : lo = lo' := by
  rcases lt_trichotomy lo lo' with hlt | heq | hlt
  · exact absurd (h.2.2 lo' hlo' hlt) (not_le.mpr h'.2.1)
  · exact heq
  · exact absurd (h'.2.2 lo hlo hlt) (not_le.mpr h.2.1)

theorem IsLast.not_isNext (h : IsLast S lo) : ¬ IsNext S lo y := fun hnext =>
  absurd (h y hnext.1) (not_le.mpr hnext.2.1)

/-- **The descent rule.** `T` has the fences of `S` and cuts between them. The greatest
fence of `T` not above `k`, among those in the interval of `S` that contains `k`, starts
the interval of `T` that contains `k`. -/
theorem Covers.refine (h : Covers S k lo) {x : K} (hx : x ∈ T) (hlo : lo ≤ x) (hxk : x ≤ k)
    (hmax : ∀ c ∈ T, Covers S c lo → c ≤ k → c ≤ x) : Covers T k x := by
  refine ⟨hx, hxk, fun y hy hyk => ?_⟩
  rcases le_or_gt lo y with hle | hlt
  · exact hmax y hy (h.of_le hle hyk) hyk
  · exact hlt.le.trans hlo

/-- An interval between fences of `T` lies within one between fences of `S`, when `T` has
the fences of `S`. -/
theorem Covers.trans (hST : S ⊆ T) (h : Covers S z lo) (h' : Covers T k z) : Covers S k lo := by
  refine ⟨h.1, h.2.1.trans h'.2.1, fun y hy hyk => ?_⟩
  exact h.2.2 y hy (h'.2.2 y (hST hy) hyk)

theorem exists_covers (hfin : S.Finite) (hs : s ∈ S) (hsk : s ≤ k) : ∃ lo, Covers S k lo := by
  obtain ⟨lo, hlo, hmax⟩ :=
    Set.exists_max_image {x ∈ S | x ≤ k} id (hfin.subset (Set.sep_subset _ _)) ⟨s, hs, hsk⟩
  exact ⟨lo, hlo.1, hlo.2, fun y hy hyk => hmax y ⟨hy, hyk⟩⟩

/-- The fences from `lo` on. -/
def onward (S : Set K) (lo : K) : Set K := {x ∈ S | lo ≤ x}

theorem onward_of_isLast (hlo : lo ∈ S) (h : IsLast S lo) : onward S lo = {lo} := by
  refine Set.eq_singleton_iff_unique_mem.mpr ⟨⟨hlo, le_rfl⟩, fun x hx => ?_⟩
  exact le_antisymm (h x hx.1) hx.2

theorem onward_of_isNext (hlo : lo ∈ S) (h : IsNext S lo y) :
    onward S lo = insert lo (onward S y) := by
  ext x
  constructor
  · rintro ⟨hx, hle⟩
    rcases hle.eq_or_lt with rfl | hlt
    · exact Set.mem_insert _ _
    · exact Set.mem_insert_of_mem _ ⟨hx, h.2.2 x hx hlt⟩
  · rintro (rfl | ⟨hx, hle⟩)
    · exact ⟨hlo, le_rfl⟩
    · exact ⟨hx, h.2.1.le.trans hle⟩

theorem notMem_onward (h : lo < y) : lo ∉ onward S y := fun hlo => absurd hlo.2 (not_le.mpr h)

section Insert

variable (hlo : lo ∈ S) (hs : lo < s) (hbefore : ∀ y ∈ S, lo < y → s < y)

include hs hbefore in
theorem isNext_insert_self : IsNext (insert s S) lo s := by
  refine ⟨Set.mem_insert _ _, hs, fun z hz hlt => ?_⟩
  rcases hz with rfl | hz
  · exact le_rfl
  · exact (hbefore z hz hlt).le

include hs hbefore in
theorem isNext_insert_new (h : IsNext S lo y) : IsNext (insert s S) s y := by
  refine ⟨Set.mem_insert_of_mem _ h.1, hbefore y h.1 h.2.1, fun z hz hlt => ?_⟩
  rcases hz with rfl | hz
  · exact absurd hlt (lt_irrefl _)
  · exact h.2.2 z hz (hs.trans hlt)

include hs in
theorem isLast_insert_new (h : IsLast S lo) : IsLast (insert s S) s := by
  intro z hz
  rcases hz with rfl | hz
  · exact le_rfl
  · exact (h z hz).trans hs.le

include hlo hs hbefore in
theorem isNext_insert_other (hzS : z ∈ S) (hz : z ≠ lo) :
    IsNext (insert s S) z y ↔ IsNext S z y := by
  constructor
  · intro h
    have hys : y ≠ s := by
      rintro rfl
      rcases lt_or_gt_of_ne hz with hlt | hgt
      · exact absurd (h.2.2 lo (Set.mem_insert_of_mem _ hlo) hlt) (not_le.mpr hs)
      · exact absurd (hbefore z hzS hgt) (not_lt.mpr h.2.1.le)
    exact ⟨h.1.resolve_left hys, h.2.1, fun x hx => h.2.2 x (Set.mem_insert_of_mem _ hx)⟩
  · intro h
    refine ⟨Set.mem_insert_of_mem _ h.1, h.2.1, fun x hx hlt => ?_⟩
    rcases hx with rfl | hx
    · rcases lt_or_gt_of_ne hz with hlt' | hgt
      · exact (h.2.2 lo hlo hlt').trans hs.le
      · exact absurd (hbefore z hzS hgt) (not_lt.mpr hlt.le)
    · exact h.2.2 x hx hlt

include hlo hbefore in
theorem isLast_insert_other (hzS : z ∈ S) (hz : z ≠ lo) : IsLast (insert s S) z ↔ IsLast S z := by
  constructor
  · exact fun h x hx => h x (Set.mem_insert_of_mem _ hx)
  · intro h x hx
    rcases hx with rfl | hx
    · exact (hbefore z hzS (lt_of_le_of_ne (h lo hlo) hz.symm)).le
    · exact h x hx

include hlo hs hbefore in
theorem covers_insert_left : Covers (insert s S) k lo ↔ Covers S k lo ∧ k < s := by
  constructor
  · intro h
    refine ⟨⟨hlo, h.2.1, fun y hy => h.2.2 y (Set.mem_insert_of_mem _ hy)⟩, ?_⟩
    exact h.lt_of_lt (Set.mem_insert _ _) hs
  · rintro ⟨h, hk⟩
    refine ⟨Set.mem_insert_of_mem _ hlo, h.2.1, fun y hy hyk => ?_⟩
    rcases hy with rfl | hy
    · exact absurd hyk (not_le.mpr hk)
    · exact h.2.2 y hy hyk

include hlo hs hbefore in
theorem covers_insert_right : Covers (insert s S) k s ↔ Covers S k lo ∧ s ≤ k := by
  constructor
  · intro h
    refine ⟨⟨hlo, hs.le.trans h.2.1, fun y hy hyk => ?_⟩, h.2.1⟩
    have hys : y ≤ s := h.2.2 y (Set.mem_insert_of_mem _ hy) hyk
    by_contra hgt
    exact absurd (hbefore y hy (not_le.mp hgt)) (not_lt.mpr hys)
  · rintro ⟨h, hk⟩
    refine ⟨Set.mem_insert _ _, hk, fun y hy hyk => ?_⟩
    rcases hy with rfl | hy
    · exact le_rfl
    · exact (h.2.2 y hy hyk).trans hs.le

include hlo hs hbefore in
theorem covers_insert_other (hzS : z ∈ S) (hz : z ≠ lo) :
    Covers (insert s S) k z ↔ Covers S k z := by
  constructor
  · intro h
    exact ⟨hzS, h.2.1, fun y hy => h.2.2 y (Set.mem_insert_of_mem _ hy)⟩
  · intro h
    refine ⟨Set.mem_insert_of_mem _ hzS, h.2.1, fun y hy hyk => ?_⟩
    rcases hy with rfl | hy
    · rcases lt_or_gt_of_ne hz with hlt | hgt
      · exact absurd (hs.le.trans hyk) (not_le.mpr (h.lt_of_lt hlo hlt))
      · exact (hbefore z hzS hgt).le
    · exact h.2.2 y hy hyk

end Insert

end McfKv.Fence
