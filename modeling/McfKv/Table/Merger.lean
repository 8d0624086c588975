import McfKv.Lib.Cursor
import McfKv.Lib.Run

/-!
# The merging iterator (`table/merger.cc`, `table/iterator_wrapper.h`)

A merging iterator has `n` children and shows the child with the smallest key when it moves
forward, and with the largest key when it moves in reverse. Each child is an iterator over a list
with ascending keys, that is a cursor (`McfKv.Lib.Cursor`), wrapped in an `IteratorWrapper` that
keeps a copy of the child's key. Only the current child moves on a `Next` or `Prev`; a change of
the direction also moves the others.

The invariant is `Positioned`: for some bound, every child is at its first entry behind the bound,
and so is the cursor over the union of the lists. `FindSmallest` keeps this for any bound
(`IsUnion.related_findSmallest`), and the bound after `Next` is the key that was left. The
reverse direction is the same for the reversed lists and the opposite comparator.
`merged_run_shows` is the result for sequences of calls.
-/

namespace McfKv

open Cursor

variable {K V : Type}

/-! ## `class IteratorWrapper` -/

/-- `class IteratorWrapper`: where the wrapped iterator is, and the copies `valid_` and `key_`.
`Update` refreshes them after each call, so they agree with the iterator. -/
structure IteratorWrapper (K V : Type) where
  iter : Option (K × V)
  valid : Bool
  cachedKey : Option K
  valid_eq : valid = iter.isSome
  cachedKey_eq : valid = true → cachedKey = iter.map Prod.fst

namespace IteratorWrapper

/-- `IteratorWrapper::Update` after the iterator has moved; an invalid iterator leaves the old
key behind. -/
def update (w : IteratorWrapper K V) : Option (K × V) → IteratorWrapper K V
  | none => ⟨none, false, w.cachedKey, rfl, by simp⟩
  | some p => ⟨some p, true, some p.1, rfl, fun _ => rfl⟩

/-- `IteratorWrapper::Set` on a new wrapper. -/
def set (iter : Option (K × V)) : IteratorWrapper K V :=
  update ⟨none, false, none, rfl, by simp⟩ iter

/-- `IteratorWrapper::key`, which asserts `Valid`. -/
def key? (w : IteratorWrapper K V) : Option K := if w.valid then w.cachedKey else none

@[simp] theorem iter_update (w : IteratorWrapper K V) (iter : Option (K × V)) :
    (w.update iter).iter = iter := by
  cases iter <;> rfl

@[simp] theorem key?_eq (w : IteratorWrapper K V) : w.key? = w.iter.map Prod.fst := by
  unfold key?
  split_ifs with hvalid
  · exact w.cachedKey_eq hvalid
  · rw [w.valid_eq] at hvalid
    rw [Option.not_isSome_iff_eq_none.mp hvalid, Option.map_none]

end IteratorWrapper

/-! ## `class MergingIterator` -/

/-- `enum Direction` of `MergingIterator`. -/
inductive MergingIterator.Direction where
  | forward
  | reverse
deriving DecidableEq, Repr

/-- `class MergingIterator`, without the comparator and the children's lists. -/
structure MergingIterator (K V : Type) (n : ℕ) where
  children : Fin n → IteratorWrapper K V
  current : Option (Fin n)
  direction : MergingIterator.Direction

namespace MergingIterator

variable {n : ℕ}

/-- One turn of the loops of `FindSmallest` and `FindLargest`: the child replaces the best one so
far if it is valid and comes before it. -/
def better {ι : Type*} (before : K → K → Bool) (keyOf : ι → Option K) (best : Option ι) (i : ι) :
    Option ι :=
  match keyOf i with
  | none => best
  | some k =>
    match best.bind keyOf with
    | none => some i
    | some b => if before k b then some i else best

section Calls

variable (cmp : K → K → Ordering) (lists : Fin n → List (K × V))

/-- `MergingIterator::FindSmallest`. -/
def findSmallest (children : Fin n → IteratorWrapper K V) : Option (Fin n) :=
  (List.finRange n).foldl (better (fun a b => cmp a b = .lt) fun i => (children i).key?) none

/-- `MergingIterator::FindLargest`, which scans the children from the last one on. -/
def findLargest (children : Fin n → IteratorWrapper K V) : Option (Fin n) :=
  (List.finRange n).reverse.foldl (better (fun a b => cmp a b = .gt) fun i => (children i).key?)
    none

/-- A call on a child; `none` is a `Next` or `Prev` of a child that is not valid. -/
def call (i : Fin n) (op : Cursor.Op K) (w : IteratorWrapper K V) : Option (IteratorWrapper K V) :=
  (stepWith cmp (lists i) w.iter op).map w.update

/-- The results of calls on all children. -/
def all (f : Fin n → Option (IteratorWrapper K V)) : Option (Fin n → IteratorWrapper K V) :=
  if h : ∀ i, (f i).isSome then some fun i => (f i).get (h i) else none

/-- What `Next` does to a child other than the current one after a change of the direction. -/
def seekAfter (key : K) (i : Fin n) (w : IteratorWrapper K V) : Option (IteratorWrapper K V) := do
  let w ← call cmp lists i (.seek key) w
  match w.key? with
  | some k => if cmp key k = .eq then call cmp lists i .next w else return w
  | none => return w

/-- What `Prev` does to a child other than the current one after a change of the direction. -/
def seekBefore (key : K) (i : Fin n) (w : IteratorWrapper K V) : Option (IteratorWrapper K V) := do
  let w ← call cmp lists i (.seek key) w
  if w.valid then call cmp lists i .prev w else call cmp lists i .seekToLast w

/-- `MergingIterator::MergingIterator` for children at the given positions. -/
def new (start : Fin n → Option (K × V)) : MergingIterator K V n :=
  ⟨fun i => .set (start i), none, .forward⟩

/-- `MergingIterator::Valid`. -/
def valid (m : MergingIterator K V n) : Bool := m.current.isSome

/-- `MergingIterator::key`. -/
def key (m : MergingIterator K V n) : Option K := m.current.bind fun i => (m.children i).key?

/-- `MergingIterator::value`. -/
def value (m : MergingIterator K V n) : Option V :=
  m.current.bind fun i => (m.children i).iter.map Prod.snd

/-- `MergingIterator::SeekToFirst`. -/
def seekToFirst (m : MergingIterator K V n) : Option (MergingIterator K V n) := do
  let children ← all fun i => call cmp lists i .seekToFirst (m.children i)
  return ⟨children, findSmallest cmp children, .forward⟩

/-- `MergingIterator::SeekToLast`. -/
def seekToLast (m : MergingIterator K V n) : Option (MergingIterator K V n) := do
  let children ← all fun i => call cmp lists i .seekToLast (m.children i)
  return ⟨children, findLargest cmp children, .reverse⟩

/-- `MergingIterator::Seek`. -/
def seek (target : K) (m : MergingIterator K V n) : Option (MergingIterator K V n) := do
  let children ← all fun i => call cmp lists i (.seek target) (m.children i)
  return ⟨children, findSmallest cmp children, .forward⟩

/-- `MergingIterator::Next`. -/
def next (m : MergingIterator K V n) : Option (MergingIterator K V n) := do
  let cur ← m.current
  let key ← m.key
  let children ←
    if m.direction ≠ .forward then
      all fun i =>
        if i = cur then some (m.children i) else seekAfter cmp lists key i (m.children i)
    else some m.children
  let child ← call cmp lists cur .next (children cur)
  let children := Function.update children cur child
  return ⟨children, findSmallest cmp children, .forward⟩

/-- `MergingIterator::Prev`. -/
def prev (m : MergingIterator K V n) : Option (MergingIterator K V n) := do
  let cur ← m.current
  let key ← m.key
  let children ←
    if m.direction ≠ .reverse then
      all fun i =>
        if i = cur then some (m.children i) else seekBefore cmp lists key i (m.children i)
    else some m.children
  let child ← call cmp lists cur .prev (children cur)
  let children := Function.update children cur child
  return ⟨children, findLargest cmp children, .reverse⟩

/-- One call on the iterator. -/
def step (m : MergingIterator K V n) : Cursor.Op K → Option (MergingIterator K V n)
  | .seek target => seek cmp lists target m
  | .seekToFirst => seekToFirst cmp lists m
  | .seekToLast => seekToLast cmp lists m
  | .next => next cmp lists m
  | .prev => prev cmp lists m

/-- The entries that a reader gets who goes on with `Next` for as long as the iterator is valid; the
first argument bounds the number of calls. -/
def scan : ℕ → MergingIterator K V n → List (K × V)
  | 0, _ => []
  | steps + 1, m =>
    match m.key, m.value with
    | some k, some v => (k, v) :: ((next cmp lists m).map (scan steps)).getD []
    | _, _ => []

end Calls

/-- What a reader of the iterator sees. -/
structure Shows (m : MergingIterator K V n) (c : Option (K × V)) : Prop where
  valid : m.valid = c.isSome
  key : m.key = c.map Prod.fst
  value : m.value = c.map Prod.snd

/-! ## The best child -/

section Better

variable {ι : Type} (cmp : K → K → Ordering) (keyOf : ι → Option K)

/-- A child of the set with no key before its own, if a child of the set has a key at all. -/
def Least (S : ι → Prop) : Option ι → Prop
  | none => ∀ i, S i → keyOf i = none
  | some j => S j ∧ ∃ k, keyOf j = some k ∧
      ∀ i, S i → ∀ k', keyOf i = some k' → cmp k' k ≠ .lt

variable {cmp keyOf} [Std.TransCmp cmp]

theorem Least.better {S : ι → Prop} {best : Option ι} (h : Least cmp keyOf S best) (i : ι) :
    Least cmp keyOf (fun x => S x ∨ x = i) (better (fun a b => cmp a b = .lt) keyOf best i) := by
  unfold MergingIterator.better
  cases hi : keyOf i with
  | none =>
    cases best with
    | none =>
      rintro x (hx | rfl)
      · exact h x hx
      · exact hi
    | some j =>
      obtain ⟨hj, k, hk, hmin⟩ := h
      refine ⟨.inl hj, k, hk, ?_⟩
      rintro x (hx | rfl) k' hk'
      · exact hmin x hx k' hk'
      · simp [hi] at hk'
  | some ki =>
    cases best with
    | none =>
      refine ⟨.inr rfl, ki, hi, ?_⟩
      rintro x (hx | rfl) k' hk'
      · simp [h x hx] at hk'
      · obtain rfl := Option.some.inj (hi.symm.trans hk')
        exact cmp_self_ne_lt ki
    | some j =>
      obtain ⟨hj, k, hk, hmin⟩ := h
      simp only [Option.bind_some, hk, decide_eq_true_eq]
      split_ifs with hlt
      · refine ⟨.inr rfl, ki, hi, ?_⟩
        rintro x (hx | rfl) k' hk'
        · exact not_lt_trans (Std.OrientedCmp.not_lt_of_lt hlt) (hmin x hx k' hk')
        · obtain rfl := Option.some.inj (hi.symm.trans hk')
          exact cmp_self_ne_lt ki
      · refine ⟨.inl hj, k, hk, ?_⟩
        rintro x (hx | rfl) k' hk'
        · exact hmin x hx k' hk'
        · obtain rfl := Option.some.inj (hi.symm.trans hk')
          exact hlt

/-- **What the search finds**: the least of the children that it looks at. -/
theorem Least.foldl_better {S : ι → Prop} (l : List ι) {best : Option ι}
    (h : Least cmp keyOf S best) : Least cmp keyOf (fun x => S x ∨ x ∈ l)
      (l.foldl (MergingIterator.better (fun a b => cmp a b = .lt) keyOf) best) := by
  induction l generalizing S best with
  | nil => simpa using h
  | cons i l ih =>
    have hrest := ih (h.better i)
    simp only [or_assoc] at hrest
    simpa only [List.mem_cons, List.foldl_cons] using hrest

end Better

/-- The child with the least entry, if a child is at an entry at all. -/
def Best (cmp : K → K → Ordering) (children : Fin n → IteratorWrapper K V) :
    Option (Fin n) → Prop
  | none => ∀ i, (children i).iter = none
  | some j => ∃ c, (children j).iter = some c ∧
      ∀ i e, (children i).iter = some e → cmp e.1 c.1 ≠ .lt

variable {children : Fin n → IteratorWrapper K V} {P : K × V → Bool} {m : MergingIterator K V n}
  {c : K × V} {i j : Fin n} {found : Fin n → Option (K × V)}

theorem Least.best {cmp : K → K → Ordering} {S : Fin n → Prop} (hS : ∀ i, S i)
    {best : Option (Fin n)} (h : Least cmp (fun i => (children i).key?) S best) :
    Best cmp children best := by
  have hkey : ∀ i, (children i).key? = (children i).iter.map Prod.fst := fun i =>
    IteratorWrapper.key?_eq _
  cases best with
  | none =>
    intro i
    have hnone : (children i).key? = none := h i (hS i)
    rwa [hkey, Option.map_eq_none_iff] at hnone
  | some j =>
    obtain ⟨-, k, hk, hmin⟩ := h
    obtain ⟨c, hc, rfl⟩ := Option.map_eq_some_iff.mp ((hkey j).symm.trans hk)
    refine ⟨c, hc, fun i e he => hmin i (hS i) e.1 ?_⟩
    simp only [hkey, he, Option.map_some]

variable {cmp : K → K → Ordering} [Std.TransCmp cmp]

theorem findSmallest_best (children : Fin n → IteratorWrapper K V) :
    Best cmp children (findSmallest cmp children) := by
  have h : Least cmp (fun i => (children i).key?) (fun _ => False) none := fun i hi => hi.elim
  exact (h.foldl_better (List.finRange n)).best fun i => .inr (List.mem_finRange i)

/-- The largest child is the smallest one for the opposite comparator. -/
theorem findLargest_best (children : Fin n → IteratorWrapper K V) :
    Best (fun a b => cmp b a) children (findLargest cmp children) := by
  have h : Least (fun a b => cmp b a) (fun i => (children i).key?) (fun _ => False) none :=
    fun i hi => hi.elim
  have hfold := (h.foldl_better (List.finRange n).reverse).best fun i =>
    .inr (List.mem_reverse.mpr (List.mem_finRange i))
  unfold findLargest
  simpa only [Std.OrientedCmp.gt_iff_lt] using hfold

/-! ## The union of the lists -/

/-- The ascending lists have no key in common, and `U` is their union. -/
structure IsUnion (cmp : K → K → Ordering) (lists : Fin n → List (K × V)) (U : List (K × V)) :
    Prop where
  ascending : ∀ i, Ascending cmp (lists i)
  disjoint : ∀ i j p q, p ∈ lists i → q ∈ lists j → cmp p.1 q.1 = .eq → i = j
  union : Ascending cmp U
  mem_iff : ∀ p, p ∈ U ↔ ∃ i, p ∈ lists i

variable {lists : Fin n → List (K × V)} {U : List (K × V)}

theorem IsUnion.opposite (h : IsUnion cmp lists U) :
    IsUnion (fun a b => cmp b a) (fun i => (lists i).reverse) U.reverse where
  ascending i := (h.ascending i).reverse
  disjoint i j p q hp hq heq :=
    h.disjoint i j p q (by simpa using hp) (by simpa using hq) (Std.OrientedCmp.eq_symm heq)
  union := h.union.reverse
  mem_iff p := by simpa using h.mem_iff p

/-- **The least child is where a cursor over the union goes**, if every child is at its first entry
with a property. -/
theorem IsUnion.find?_eq (h : IsUnion cmp lists U)
    (hiter : ∀ i, (children i).iter = (lists i).find? P) {best : Option (Fin n)}
    (hbest : Best cmp children best) : U.find? P = best.bind fun i => (children i).iter := by
  cases best with
  | none =>
    rw [Option.bind_none, List.find?_eq_none]
    intro p hp
    obtain ⟨i, hpi⟩ := (h.mem_iff p).mp hp
    exact List.find?_eq_none.mp ((hiter i).symm.trans (hbest i)) p hpi
  | some j =>
    obtain ⟨c, hc, hmin⟩ := hbest
    rw [Option.bind_some, hc, h.union.find?_eq_some_iff]
    rw [hiter] at hc
    obtain ⟨hmem, hPc, -⟩ := (h.ascending j).find?_eq_some_iff.mp hc
    refine ⟨(h.mem_iff c).mpr ⟨j, hmem⟩, hPc, fun q hq hPq => ?_⟩
    obtain ⟨i, hqi⟩ := (h.mem_iff q).mp hq
    -- the child of `q` is at an entry that is not after `q`
    cases hfind : (lists i).find? P with
    | none => exact absurd hPq (List.find?_eq_none.mp hfind q hqi)
    | some e =>
      have hqe := ((h.ascending i).find?_eq_some_iff.mp hfind).2.2 q hqi hPq
      exact not_lt_trans (hmin i e ((hiter i).trans hfind)) hqe

/-! ## The invariant -/

/-- **Where the children are** while the iterator moves forward and shows `c`: behind some bound,
as the cursor over the union is. -/
structure Positioned (cmp : K → K → Ordering) (lists : Fin n → List (K × V)) (U : List (K × V))
    (children : Fin n → IteratorWrapper K V) (P : K × V → Bool) (c : K × V) : Prop where
  upward : ∀ p q, P p → cmp q.1 p.1 ≠ .lt → P q
  iter : ∀ i, (children i).iter = (lists i).find? P
  cursor : U.find? P = some c

/-- The iterator and a cursor over the union. -/
inductive Related (cmp : K → K → Ordering) (lists : Fin n → List (K × V)) (U : List (K × V)) :
    MergingIterator K V n → Option (K × V) → Prop
  | invalid {children : Fin n → IteratorWrapper K V} {direction : Direction} :
      Related cmp lists U ⟨children, none, direction⟩ none
  | forward {children : Fin n → IteratorWrapper K V} {j : Fin n} {c : K × V} {P : K × V → Bool}
      (current : (children j).iter = some c) (positioned : Positioned cmp lists U children P c) :
      Related cmp lists U ⟨children, some j, .forward⟩ (some c)
  | reverse {children : Fin n → IteratorWrapper K V} {j : Fin n} {c : K × V} {P : K × V → Bool}
      (current : (children j).iter = some c)
      (positioned : Positioned (fun a b => cmp b a) (fun i => (lists i).reverse) U.reverse
        children P c) :
      Related cmp lists U ⟨children, some j, .reverse⟩ (some c)

omit [Std.TransCmp cmp] in
theorem Related.shows {c : Option (K × V)} (h : Related cmp lists U m c) : m.Shows c := by
  cases h with
  | invalid => exact ⟨rfl, rfl, rfl⟩
  | forward current _ =>
    exact ⟨rfl, by simp [key, current], by simp [value, current]⟩
  | reverse current _ =>
    exact ⟨rfl, by simp [key, current], by simp [value, current]⟩

section

variable (h : IsUnion cmp lists U) (hupward : ∀ p q, P p → cmp q.1 p.1 ≠ .lt → P q)
  (hiter : ∀ i, (children i).iter = (lists i).find? P)

include h hupward hiter

theorem IsUnion.positioned {best : Option (Fin n)} (hbest : Best cmp children best) :
    (best = none ∧ U.find? P = none) ∨
      ∃ j c, best = some j ∧ U.find? P = some c ∧ (children j).iter = some c ∧
        Positioned cmp lists U children P c := by
  have hfind := h.find?_eq hiter hbest
  cases best with
  | none => exact .inl ⟨rfl, hfind⟩
  | some j =>
    obtain ⟨c, hc, -⟩ := hbest
    rw [Option.bind_some, hc] at hfind
    exact .inr ⟨j, c, rfl, hfind, hc, hupward, hiter, hfind⟩

theorem IsUnion.related_findSmallest :
    Related cmp lists U ⟨children, findSmallest cmp children, .forward⟩ (U.find? P) := by
  rcases h.positioned hupward hiter (findSmallest_best children) with
    ⟨hbest, hfind⟩ | ⟨j, c, hbest, hfind, hc, hpos⟩
  · rw [hbest, hfind]
    exact .invalid
  · rw [hbest, hfind]
    exact .forward hc hpos

end

theorem IsUnion.related_findLargest (h : IsUnion cmp lists U)
    (hdownward : ∀ p q, P p → cmp p.1 q.1 ≠ .lt → P q)
    (hiter : ∀ i, (children i).iter = (lists i).reverse.find? P) :
    Related cmp lists U ⟨children, findLargest cmp children, .reverse⟩ (U.reverse.find? P) := by
  rcases h.opposite.positioned hdownward hiter (findLargest_best children) with
    ⟨hbest, hfind⟩ | ⟨j, c, hbest, hfind, hc, hpos⟩
  · rw [hbest, hfind]
    exact .invalid
  · rw [hbest, hfind]
    exact .reverse hc hpos

/-! ## The calls -/

section Calls

omit [Std.TransCmp cmp]

theorem call_of_step {i : Fin n} {op : Cursor.Op K} {w : IteratorWrapper K V}
    {iter : Option (K × V)} (h : stepWith cmp (lists i) w.iter op = some iter) :
    call cmp lists i op w = some (w.update iter) := by
  rw [call, h, Option.map_some]

theorem all_eq_some {f : Fin n → Option (IteratorWrapper K V)}
    {Q : Fin n → IteratorWrapper K V → Prop} (h : ∀ i, ∃ w, f i = some w ∧ Q i w) :
    ∃ children, all f = some children ∧ ∀ i, Q i (children i) := by
  choose g hg hQ using h
  have hsome : ∀ i, (f i).isSome := fun i => by rw [hg, Option.isSome_some]
  refine ⟨g, ?_, hQ⟩
  unfold all
  rw [dif_pos hsome]
  simp only [hg, Option.get_some]

theorem all_call (children : Fin n → IteratorWrapper K V) (op : Cursor.Op K)
    {iters : Fin n → Option (K × V)}
    (h : ∀ i, stepWith cmp (lists i) (children i).iter op = some (iters i)) :
    ∃ children', all (fun i => call cmp lists i op (children i)) = some children' ∧
      ∀ i, (children' i).iter = iters i :=
  all_eq_some (Q := fun i w => w.iter = iters i) fun i =>
    ⟨_, call_of_step (h i), IteratorWrapper.iter_update _ _⟩

theorem Positioned.mem {children : Fin n → IteratorWrapper K V} {P : K × V → Bool} {c : K × V}
    {j : Fin n} (hpos : Positioned cmp lists U children P c) (hcur : (children j).iter = some c) :
    c ∈ lists j :=
  List.mem_of_find?_eq_some ((hpos.iter j).symm.trans hcur)

end Calls

section

variable (h : IsUnion cmp lists U) (hc : c ∈ lists j)

include h hc

theorem IsUnion.lt_of_not_lt {p : K × V} (hp : p ∈ lists i) (hij : i ≠ j)
    (hle : cmp p.1 c.1 ≠ .lt) : cmp c.1 p.1 = .lt := by
  cases hcmp : cmp c.1 p.1 with
  | lt => rfl
  | eq => exact absurd (h.disjoint j i c p hc hp hcmp).symm hij
  | gt => exact absurd (Std.OrientedCmp.lt_of_gt hcmp) hle

/-- While the iterator moves forward, the children other than the current one are behind the current
key. -/
theorem IsUnion.iter_of_positioned (hpos : Positioned cmp lists U children P c) (hij : i ≠ j) :
    (children i).iter = (lists i).find? fun p => cmp c.1 p.1 = .lt := by
  obtain ⟨-, hPc, hmin⟩ := h.union.find?_eq_some_iff.mp hpos.cursor
  rw [hpos.iter]
  refine find?_congr_of_mem fun p hp => ?_
  rw [Bool.eq_iff_iff, decide_eq_true_iff]
  constructor
  · intro hPp
    exact h.lt_of_not_lt hc hp hij (hmin p ((h.mem_iff p).mpr ⟨i, hp⟩) hPp)
  · intro hlt
    exact hpos.upward c p hPc (Std.OrientedCmp.not_lt_of_lt hlt)

theorem IsUnion.seekAfter_eq (hij : i ≠ j) (w : IteratorWrapper K V) :
    ∃ w', seekAfter cmp lists c.1 i w = some w' ∧
      w'.iter = (lists i).find? fun p => cmp c.1 p.1 = .lt := by
  have hseek : ((lists i).find? fun p => cmp p.1 c.1 ≠ .lt) =
      (lists i).find? fun p => cmp c.1 p.1 = .lt := by
    refine find?_congr_of_mem fun p hp => decide_eq_decide.mpr ⟨?_, ?_⟩
    · exact h.lt_of_not_lt hc hp hij
    · exact Std.OrientedCmp.not_lt_of_lt
  refine ⟨w.update ((lists i).find? fun p => cmp c.1 p.1 = .lt), ?_, IteratorWrapper.iter_update _ _⟩
  unfold seekAfter
  rw [call_of_step (show stepWith cmp (lists i) w.iter (.seek c.1) = _ from congrArg some hseek)]
  simp only [Option.bind_eq_bind, Option.bind_some, IteratorWrapper.key?_eq,
    IteratorWrapper.iter_update]
  cases hfind : (lists i).find? fun p => cmp c.1 p.1 = .lt with
  | none => rfl
  | some e =>
    -- no other child has the current key
    have hlt : cmp c.1 e.1 = .lt := by simpa using List.find?_some hfind
    simp [hlt]

end

theorem IsUnion.seekBefore_eq (h : IsUnion cmp lists U) (c : K × V) (i : Fin n)
    (w : IteratorWrapper K V) : ∃ w', seekBefore cmp lists c.1 i w = some w' ∧
      w'.iter = (lists i).reverse.find? fun p => cmp p.1 c.1 = .lt := by
  unfold seekBefore
  rw [call_of_step (show stepWith cmp (lists i) w.iter (.seek c.1) = _ from rfl)]
  simp only [Option.bind_eq_bind, Option.bind_some]
  cases hfind : (lists i).find? fun p => cmp p.1 c.1 ≠ .lt with
  | none =>
    -- all entries are in front of the key
    have hall := List.find?_eq_none.mp hfind
    refine ⟨_, call_of_step rfl, ?_⟩
    rw [IteratorWrapper.iter_update, List.getLast?_eq_head?_reverse, head?_eq_find?]
    refine find?_congr_of_mem fun p hp => ?_
    simpa using hall p (List.mem_reverse.mp hp)
  | some e =>
    obtain ⟨-, he, hmin⟩ := (h.ascending i).find?_eq_some_iff.mp hfind
    simp only [decide_eq_true_eq] at he hmin
    refine ⟨_, call_of_step rfl, ?_⟩
    rw [IteratorWrapper.iter_update]
    refine find?_congr_of_mem fun p hp => decide_eq_decide.mpr ⟨fun hlt => ?_, fun hlt => ?_⟩
    · by_contra hge
      exact hmin p (List.mem_reverse.mp hp) hge hlt
    · by_contra hge
      exact not_lt_trans he hge hlt

theorem iter_update_child {child : IteratorWrapper K V} (hchild : child.iter = found j)
    (hothers : ∀ i, i ≠ j → (children i).iter = found i) (i : Fin n) :
    (Function.update children j child i).iter = found i := by
  by_cases hij : i = j
  · subst hij
    rw [Function.update_self, hchild]
  · rw [Function.update_of_ne hij]
    exact hothers i hij

theorem all_others {f : Fin n → IteratorWrapper K V → Option (IteratorWrapper K V)}
    (hothers : ∀ i, i ≠ j → ∃ w, f i (children i) = some w ∧ w.iter = found i) :
    ∃ children', all (fun i => if i = j then some (children i) else f i (children i)) =
        some children' ∧
      (children' j).iter = (children j).iter ∧ ∀ i, i ≠ j → (children' i).iter = found i := by
  obtain ⟨children', hall, hiter⟩ := all_eq_some
    (f := fun i => if i = j then some (children i) else f i (children i))
    (Q := fun i w => if i = j then w = children j else w.iter = found i) fun i => by
      by_cases hij : i = j
      · exact ⟨children i, by simp [hij], by simp [hij]⟩
      · simpa only [hij, if_false] using hothers i hij
  refine ⟨children', hall, ?_, fun i hij => ?_⟩
  · have hj := hiter j
    rw [if_pos rfl] at hj
    rw [hj]
  · simpa only [hij, if_false] using hiter i

section

variable (h : IsUnion cmp lists U)

include h

theorem IsUnion.related_next (hcur : (children j).iter = some c)
    (hothers : ∀ i, i ≠ j → (children i).iter = (lists i).find? fun p => cmp c.1 p.1 = .lt) :
    ∃ child, call cmp lists j .next (children j) = some child ∧
      Related cmp lists U ⟨Function.update children j child,
        findSmallest cmp (Function.update children j child), .forward⟩
        (U.find? fun p => cmp c.1 p.1 = .lt) := by
  refine ⟨_, call_of_step (by rw [hcur]; rfl), h.related_findSmallest ?_ (iter_update_child
    (IteratorWrapper.iter_update _ _) hothers)⟩
  intro p q hp hpq
  simp only [decide_eq_true_eq] at hp ⊢
  by_contra hq
  exact not_lt_trans hpq hq hp

theorem IsUnion.related_prev (hcur : (children j).iter = some c) (hothers : ∀ i, i ≠ j →
      (children i).iter = (lists i).reverse.find? fun p => cmp p.1 c.1 = .lt) :
    ∃ child, call cmp lists j .prev (children j) = some child ∧
      Related cmp lists U ⟨Function.update children j child,
        findLargest cmp (Function.update children j child), .reverse⟩
        (U.reverse.find? fun p => cmp p.1 c.1 = .lt) := by
  refine ⟨_, call_of_step (by rw [hcur]; rfl), h.related_findLargest ?_ (iter_update_child
    (IteratorWrapper.iter_update _ _) hothers)⟩
  intro p q hp hpq
  simp only [decide_eq_true_eq] at hp ⊢
  by_contra hq
  exact not_lt_trans hq hpq hp

/-! ## Runs -/

theorem IsUnion.seek_related (m : MergingIterator K V n) (target : K) :
    ∃ m', seek cmp lists target m = some m' ∧
      Related cmp lists U m' (U.find? fun p => cmp p.1 target ≠ .lt) := by
  obtain ⟨children, hall, hiter⟩ := all_call m.children (.seek target) fun i =>
    (rfl : stepWith cmp (lists i) (m.children i).iter (.seek target) = _)
  refine ⟨_, by rw [seek, hall]; rfl, h.related_findSmallest (fun p q hp hpq => ?_) hiter⟩
  simp only [decide_eq_true_eq] at hp ⊢
  exact not_lt_trans hp hpq

theorem IsUnion.seekToFirst_related (m : MergingIterator K V n) :
    ∃ m', seekToFirst cmp lists m = some m' ∧ Related cmp lists U m' U.head? := by
  obtain ⟨children, hall, hiter⟩ := all_call m.children .seekToFirst fun i =>
    (rfl : stepWith cmp (lists i) (m.children i).iter .seekToFirst = _)
  simp only [head?_eq_find?] at hiter ⊢
  exact ⟨_, by rw [seekToFirst, hall]; rfl, h.related_findSmallest (fun _ _ _ _ => rfl) hiter⟩

theorem IsUnion.seekToLast_related (m : MergingIterator K V n) :
    ∃ m', seekToLast cmp lists m = some m' ∧ Related cmp lists U m' U.getLast? := by
  obtain ⟨children, hall, hiter⟩ := all_call m.children .seekToLast fun i =>
    (rfl : stepWith cmp (lists i) (m.children i).iter .seekToLast = _)
  simp only [List.getLast?_eq_head?_reverse, head?_eq_find?] at hiter ⊢
  exact ⟨_, by rw [seekToLast, hall]; rfl, h.related_findLargest (fun _ _ _ _ => rfl) hiter⟩

theorem IsUnion.next_related (hm : Related cmp lists U m (some c)) :
    ∃ m', next cmp lists m = some m' ∧
      Related cmp lists U m' (U.find? fun p => cmp c.1 p.1 = .lt) := by
  cases hm with
  | @forward children j _ P hcur hpos =>
    obtain ⟨child, hcall, hrel⟩ := h.related_next hcur fun i hij =>
      h.iter_of_positioned (hpos.mem hcur) hpos hij
    refine ⟨_, ?_, hrel⟩
    simp [next, key, hcur, hcall]
  | @reverse children j _ P hcur hpos =>
    have hc : c ∈ lists j := by simpa using hpos.mem hcur
    obtain ⟨children', hall, hj, hothers⟩ := all_others fun i hij =>
      h.seekAfter_eq hc hij (children i)
    obtain ⟨child, hcall, hrel⟩ := h.related_next (hj.trans hcur) hothers
    refine ⟨_, ?_, hrel⟩
    simp [next, key, hcur, hall, hcall]

theorem IsUnion.prev_related (hm : Related cmp lists U m (some c)) :
    ∃ m', prev cmp lists m = some m' ∧
      Related cmp lists U m' (U.reverse.find? fun p => cmp p.1 c.1 = .lt) := by
  cases hm with
  | @reverse children j _ P hcur hpos =>
    obtain ⟨child, hcall, hrel⟩ := h.related_prev hcur fun i hij =>
      h.opposite.iter_of_positioned (hpos.mem hcur) hpos hij
    refine ⟨_, ?_, hrel⟩
    simp [prev, key, hcur, hcall]
  | @forward children j _ P hcur hpos =>
    obtain ⟨children', hall, hj, hothers⟩ := all_others fun i (_ : i ≠ j) =>
      h.seekBefore_eq c i (children i)
    obtain ⟨child, hcall, hrel⟩ := h.related_prev (hj.trans hcur) hothers
    refine ⟨_, ?_, hrel⟩
    simp [prev, key, hcur, hall, hcall]

/-- **Each call does what it does on a cursor over the union.** -/
theorem IsUnion.step_simulates (m : MergingIterator K V n) (c : Option (K × V)) (op : Cursor.Op K)
    (hm : Related cmp lists U m c) :
    Option.Rel (Related cmp lists U) (step cmp lists m op) (stepWith cmp U c op) := by
  have hsome : ∀ {r : Option (MergingIterator K V n)} {c' : Option (K × V)},
      (∃ m', r = some m' ∧ Related cmp lists U m' c') →
      Option.Rel (Related cmp lists U) r (some c') := by
    rintro r c' ⟨m', rfl, hm'⟩
    exact .some hm'
  cases op with
  | seek target => exact hsome (h.seek_related m target)
  | seekToFirst => exact hsome (h.seekToFirst_related m)
  | seekToLast => exact hsome (h.seekToLast_related m)
  | next =>
    cases c with
    | none =>
      cases hm
      exact .none
    | some c => exact hsome (h.next_related hm)
  | prev =>
    cases c with
    | none =>
      cases hm
      exact .none
    | some c => exact hsome (h.prev_related hm)

/-- **A reader who goes on gets the rest of the union.** -/
theorem IsUnion.scan_eq (post : List (K × V)) : ∀ {pre : List (K × V)} {m : MergingIterator K V n}
    {steps : ℕ}, U = pre ++ post → Related cmp lists U m post.head? → post.length ≤ steps →
      scan cmp lists steps m = post := by
  induction post with
  | nil =>
    intro pre m steps _ hm _
    have hkey : m.key = none := hm.shows.key
    cases steps with
    | zero => rfl
    | succ steps => simp only [scan, hkey]
  | cons c post ih =>
    intro pre m steps hU hm hsteps
    obtain ⟨steps, rfl⟩ : ∃ k, steps = k + 1 :=
      Nat.exists_eq_add_one.mpr (Nat.zero_lt_of_lt (Nat.lt_of_succ_le hsteps))
    obtain ⟨m', hnext, hm'⟩ := h.next_related hm
    have hafter : (U.find? fun p => cmp c.1 p.1 = .lt) = post.head? := by
      have hunion := h.union
      rw [hU] at hunion ⊢
      exact hunion.find?_after
    rw [hafter] at hm'
    have hkey : m.key = some c.1 := hm.shows.key
    have hvalue : m.value = some c.2 := hm.shows.value
    have hrest := ih (hU.trans (List.append_cons pre c post)) hm' (Nat.le_of_succ_le_succ hsteps)
    simp only [scan, hkey, hvalue, hnext, Option.map_some, Option.getD_some, hrest]

end

/-- The entries of all children, in order. -/
def sortedUnion (cmp : K → K → Ordering) (lists : Fin n → List (K × V)) : List (K × V) :=
  ((List.finRange n).flatMap lists).mergeSort fun p q => (cmp p.1 q.1).isLE

theorem sortedUnion_perm (cmp : K → K → Ordering) (lists : Fin n → List (K × V)) :
    (sortedUnion cmp lists).Perm ((List.finRange n).flatMap lists) := List.mergeSort_perm _ _

theorem isUnion_sortedUnion (hascending : ∀ i, Ascending cmp (lists i))
    (hdistinct : ∀ i j, i ≠ j → ∀ p ∈ lists i, ∀ q ∈ lists j, cmp p.1 q.1 ≠ .eq) :
    IsUnion cmp lists (sortedUnion cmp lists) := by
  have hmem : ∀ p, p ∈ sortedUnion cmp lists ↔ ∃ i, p ∈ lists i := fun p => by
    rw [(sortedUnion_perm cmp lists).mem_iff, List.mem_flatMap]
    simp
  have hne : (sortedUnion cmp lists).Pairwise fun p q => cmp p.1 q.1 ≠ .eq := by
    refine (List.Perm.pairwise_iff (fun {p q} h heq => h (Std.OrientedCmp.eq_symm heq))
      (sortedUnion_perm cmp lists)).mpr ?_
    rw [List.pairwise_flatMap]
    refine ⟨fun i _ => (hascending i).imp fun hlt => by simp [hlt],
      (List.nodup_finRange n).imp fun hij p hp q hq => hdistinct _ _ hij p hp q hq⟩
  have hle : (sortedUnion cmp lists).Pairwise fun p q => (cmp p.1 q.1).isLE :=
    List.pairwise_mergeSort (fun _ _ _ => Std.TransCmp.isLE_trans) (fun p q => ?_) _
  · refine ⟨hascending, fun i j p q hp hq heq => ?_, (hle.and hne).imp ?_, hmem⟩
    · by_contra hij
      exact hdistinct i j hij p hp q hq heq
    · rintro p q ⟨hpq, hpq'⟩
      cases hcmp : cmp p.1 q.1 with
      | lt => rfl
      | eq => exact absurd hcmp hpq'
      | gt => simp [hcmp] at hpq
  · have hswap : cmp p.1 q.1 = (cmp q.1 p.1).swap := Std.OrientedCmp.eq_swap
    rw [hswap]
    cases cmp q.1 p.1 <;> rfl

/-- **The merging iterator is a cursor over the sorted union of its children**, for children that
start anywhere. -/
theorem merged_run_shows (hascending : ∀ i, Ascending cmp (lists i))
    (hdistinct : ∀ i j, i ≠ j → ∀ p ∈ lists i, ∀ q ∈ lists j, cmp p.1 q.1 ≠ .eq)
    (start : Fin n → Option (K × V)) :
    ∃ U, U.Perm ((List.finRange n).flatMap lists) ∧ Ascending cmp U ∧ ∀ ops : List (Cursor.Op K),
      Option.Rel Shows (Run.runFrom (step cmp lists) (new start) ops)
        (Run.runFrom (stepWith cmp U) none ops) := by
  have h := isUnion_sortedUnion hascending hdistinct
  refine ⟨_, sortedUnion_perm cmp lists, h.union, fun ops => ?_⟩
  exact Run.rel_mono (fun _ _ => Related.shows) (Run.runFrom_rel h.step_simulates .invalid ops)

/-- Two children with the keys 1, 4 and 2. -/
def twoLists (i : Fin 2) : List (ℕ × ℕ) := if i = 0 then [(1, 10), (4, 40)] else [(2, 20)]

theorem merged_run_shows_twoLists :
    ∃ U, U.Perm ((List.finRange 2).flatMap twoLists) ∧ Ascending compare U ∧
      Option.Rel Shows
        (Run.runFrom (step compare twoLists) (new fun _ => none) [.seek 2, .next, .prev, .prev])
        (Run.runFrom (stepWith compare U) none [.seek 2, .next, .prev, .prev]) := by
  have hascending : ∀ i, Ascending compare (twoLists i) := by decide
  have hdistinct : ∀ i j, i ≠ j → ∀ p ∈ twoLists i, ∀ q ∈ twoLists j, compare p.1 q.1 ≠ .eq := by
    decide
  obtain ⟨U, hperm, hU, hrun⟩ := merged_run_shows hascending hdistinct fun _ => none
  exact ⟨U, hperm, hU, hrun _⟩

end MergingIterator

end McfKv
