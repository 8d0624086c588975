import Mathlib.Order.Lattice
import Mathlib.Data.List.Basic
import McfKv.Lib.Run

/-!
# Cursors over a sorted map

A map is a list of pairs with increasing keys. A cursor is at one of the pairs or at none. It
can go to a key, to the ends, and from a pair to its neighbours; `Next` and `Prev` are enabled at
a pair only.

`view` is the map that a predicate and a projection select from a longer list. Its lemmas move
the searches of the cursor to that list.

`stepWith` is the cursor for keys that a comparator orders. The comparator is a total preorder:
two keys that it does not tell apart need not be equal. In an ascending list the first pair that
satisfies a predicate is the least one (`find?_eq_some_iff`), so that a search is told by a bound
instead of a position.
-/

namespace McfKv.Cursor

variable {K β : Type*}

/-- The calls of an iterator. -/
inductive Op (K : Type*) where
  | seek (target : K)
  | seekToFirst
  | seekToLast
  | next
  | prev
deriving DecidableEq, Repr

/-- A call with another target. -/
def Op.map {K' : Type*} (g : K → K') : Op K → Op K'
  | .seek target => .seek (g target)
  | .seekToFirst => .seekToFirst
  | .seekToLast => .seekToLast
  | .next => .next
  | .prev => .prev

/-- One call. The cursor goes to the first or last pair with a key that the call asks for. -/
def step [LinearOrder K] (V : List (K × β)) : Option (K × β) → Op K → Option (Option (K × β))
  | _, .seek target => some (V.find? fun p => target ≤ p.1)
  | _, .seekToFirst => some V.head?
  | _, .seekToLast => some V.getLast?
  | some c, .next => some (V.find? fun p => c.1 < p.1)
  | some c, .prev => some (V.reverse.find? fun p => p.1 < c.1)
  | none, .next => none
  | none, .prev => none

section View

variable {α γ : Type*} (shown : α → Bool) (pair : α → γ) (L : List α)

/-- The pairs of the elements that are shown. -/
def view : List γ := (L.filter shown).map pair

theorem find?_view (p : γ → Bool) :
    (view shown pair L).find? p = (L.find? fun a => shown a ∧ p (pair a)).map pair := by
  unfold view
  rw [List.find?_map, List.find?_filter]
  rfl

theorem head?_view : (view shown pair L).head? = (L.find? shown).map pair := by
  unfold view
  rw [List.head?_map, List.head?_filter]

theorem reverse_view : (view shown pair L).reverse = view shown pair L.reverse := by
  unfold view
  rw [← List.map_reverse, List.filter_reverse]

theorem getLast?_view : (view shown pair L).getLast? = (L.reverse.find? shown).map pair := by
  rw [List.getLast?_eq_head?_reverse, reverse_view, head?_view]

end View

/-! ## Keys ordered by a comparator -/

section Comparator

variable (cmp : K → K → Ordering)

/-- One call, with the keys ordered by a comparator. -/
def stepWith (V : List (K × β)) : Option (K × β) → Op K → Option (Option (K × β))
  | _, .seek target => some (V.find? fun p => cmp p.1 target ≠ .lt)
  | _, .seekToFirst => some V.head?
  | _, .seekToLast => some V.getLast?
  | some c, .next => some (V.find? fun p => cmp c.1 p.1 = .lt)
  | some c, .prev => some (V.reverse.find? fun p => cmp p.1 c.1 = .lt)
  | none, .next => none
  | none, .prev => none

/-- The keys ascend. -/
def Ascending (V : List (K × β)) : Prop := V.Pairwise fun p q => cmp p.1 q.1 = .lt

instance (V : List (K × β)) : Decidable (Ascending cmp V) :=
  inferInstanceAs (Decidable (V.Pairwise fun p q => cmp p.1 q.1 = .lt))

variable {cmp}

variable {V pre post : List (K × β)} {α : Type*} {c : K × β} {k : ℕ}

theorem Ascending.reverse (h : Ascending cmp V) :
    Ascending (fun a b => cmp b a) V.reverse := List.pairwise_reverse.mpr h

theorem transCmp_of_rank {ρ : Type*} [LinearOrder ρ] {cmp : α → α → Ordering} (rank : α → ρ)
    (hlt : ∀ a b, cmp a b = .lt ↔ rank a < rank b) (hgt : ∀ a b, cmp a b = .gt ↔ rank b < rank a) :
    Std.TransCmp cmp where
  eq_swap {a b} := by
    cases h : cmp b a with
    | lt => exact (hgt a b).mpr ((hlt b a).mp h)
    | gt => exact (hlt a b).mpr ((hgt b a).mp h)
    | eq =>
      cases h' : cmp a b with
      | lt =>
        rw [hlt, ← hgt, h] at h'
        exact absurd h' (by decide)
      | gt =>
        rw [hgt, ← hlt, h] at h'
        exact absurd h' (by decide)
      | eq => rfl
  isLE_trans {a b c} hab hbc := by
    simp only [Ordering.isLE_iff_ne_gt, hgt, not_lt] at hab hbc ⊢
    exact le_trans hab hbc

theorem find?_congr_of_mem {V : List α} {P Q : α → Bool} (h : ∀ p ∈ V, P p = Q p) :
    V.find? P = V.find? Q := by
  rw [← List.head?_filter, ← List.head?_filter, List.filter_congr h]

/-- **A call on the image of a list under a map that keeps the order.** The target of a `Seek` is
one for the image, and `g` gives the one for the list. -/
theorem stepWith_map {K' β' : Type*} {cmp' : K' → K' → Ordering} {f : K × β → K' × β'} {g : K' → K}
    (hf : ∀ p q, cmp' (f p).1 (f q).1 = cmp p.1 q.1) {op : Op K'}
    (hg : ∀ target, op = .seek target → ∀ p, cmp' (f p).1 target = cmp p.1 (g target))
    (V : List (K × β)) (c : Option (K × β)) :
    stepWith cmp' (V.map f) (c.map f) op = (stepWith cmp V c (op.map g)).map (Option.map f) := by
  cases op with
  | seek target =>
    refine congrArg some ((List.find?_map ..).trans (congrArg _ (find?_congr_of_mem fun p _ => ?_)))
    rw [Function.comp_apply, hg target rfl]
  | seekToFirst => simp [stepWith, Op.map]
  | seekToLast => simp [stepWith, Op.map]
  | next =>
    cases c with
    | none => rfl
    | some c =>
      refine congrArg some ((List.find?_map ..).trans
        (congrArg _ (find?_congr_of_mem fun p _ => ?_)))
      rw [Function.comp_apply, hf]
  | prev =>
    cases c with
    | none => rfl
    | some c =>
      show some ((V.map f).reverse.find? _) = _
      rw [← List.map_reverse]
      refine congrArg some ((List.find?_map ..).trans
        (congrArg _ (find?_congr_of_mem fun p _ => ?_)))
      rw [Function.comp_apply, hf]

theorem head?_eq_find? (V : List (K × β)) : V.head? = V.find? fun _ => true := by
  cases V <;> rfl

theorem Ascending.eq (h : Ascending cmp V) {p q : K × β} (hp : p ∈ V) (hq : q ∈ V)
    (hpq : cmp p.1 q.1 ≠ .lt) (hqp : cmp q.1 p.1 ≠ .lt) : p = q := by
  induction h with
  | nil => simp at hp
  | cons hhead _ ih =>
    rcases List.mem_cons.mp hp with rfl | hp'
    · rcases List.mem_cons.mp hq with rfl | hq'
      · rfl
      · exact absurd (hhead q hq') hpq
    · rcases List.mem_cons.mp hq with rfl | hq'
      · exact absurd (hhead p hp') hqp
      · exact ih hp' hq'

variable [Std.TransCmp cmp]

theorem cmp_self_ne_lt (a : K) : cmp a a ≠ .lt := by
  have heq : cmp a a = .eq := Std.ReflCmp.compare_self
  rw [heq]
  decide

theorem not_lt_trans {a b c : K} (hab : cmp b a ≠ .lt) (hbc : cmp c b ≠ .lt) : cmp c a ≠ .lt := by
  intro hca
  have hle : ∀ {x y : K}, cmp y x ≠ .lt → (cmp x y).isLE := fun {x y} h => by
    have hswap : cmp x y = (cmp y x).swap := Std.OrientedCmp.eq_swap
    rw [hswap]
    cases hyx : cmp y x with
    | lt => exact absurd hyx h
    | eq => rfl
    | gt => rfl
  exact hbc (Std.TransCmp.lt_of_lt_of_isLE hca (hle hab))

/-- **The first pair of an ascending list with a property is the least one.** -/
theorem Ascending.find?_eq_some_iff (h : Ascending cmp V) {P : K × β → Bool} :
    V.find? P = some c ↔ c ∈ V ∧ P c ∧ ∀ q ∈ V, P q → cmp q.1 c.1 ≠ .lt := by
  have hleast : ∀ {c}, V.find? P = some c → c ∈ V ∧ P c ∧ ∀ q ∈ V, P q → cmp q.1 c.1 ≠ .lt := by
    intro c hfind
    obtain ⟨hPc, as, bs, rfl, has⟩ := List.find?_eq_some_iff_append.mp hfind
    refine ⟨by simp, hPc, fun q hq hPq => ?_⟩
    rcases List.mem_append.mp hq with hq | hq
    · exact absurd hPq (by simpa using has q hq)
    · rcases List.mem_cons.mp hq with rfl | hq
      · exact cmp_self_ne_lt _
      · have hlt := (List.pairwise_cons.mp (List.pairwise_append.mp h).2.1).1 q hq
        exact Std.OrientedCmp.not_lt_of_lt hlt
  refine ⟨hleast, fun ⟨hc, hPc, hmin⟩ => ?_⟩
  cases hfind : V.find? P with
  | none => exact absurd hPc (List.find?_eq_none.mp hfind c hc)
  | some c' =>
    obtain ⟨hc', hPc', hmin'⟩ := hleast hfind
    rw [h.eq hc' hc (hmin c' hc' hPc') (hmin' c hc hPc)]

theorem Ascending.find?_after (h : Ascending cmp (pre ++ c :: post)) :
    (pre ++ c :: post).find? (fun p => cmp c.1 p.1 = .lt) = post.head? := by
  obtain ⟨-, hpost, hpre⟩ := List.pairwise_append.mp h
  have hbefore : ∀ p ∈ pre, ¬ cmp c.1 p.1 = .lt := fun p hp =>
    Std.OrientedCmp.not_lt_of_lt (hpre p hp c List.mem_cons_self)
  rw [List.find?_append, List.find?_eq_none.mpr fun p hp => by simpa using hbefore p hp,
    Option.none_or, List.find?_cons_of_neg (by simpa using cmp_self_ne_lt c.1)]
  cases post with
  | nil => rfl
  | cons q post =>
    exact List.find?_cons_of_pos
      (by simpa using (List.pairwise_cons.mp hpost).1 q List.mem_cons_self)

theorem Ascending.find?_before (h : Ascending cmp (pre ++ c :: post)) :
    (pre ++ c :: post).reverse.find? (fun p => cmp p.1 c.1 = .lt) = pre.getLast? := by
  have hreverse := h.reverse
  rw [List.reverse_append, List.reverse_cons, List.append_assoc, List.singleton_append] at hreverse ⊢
  rw [hreverse.find?_after, List.getLast?_eq_head?_reverse]

omit [Std.TransCmp cmp] in
theorem split_at (hk : V[k]? = some c) : V = V.take k ++ c :: V.drop (k + 1) := by
  obtain ⟨hlt, rfl⟩ := List.getElem?_eq_some_iff.mp hk
  rw [List.getElem_cons_drop, List.take_append_drop]

theorem Ascending.find?_next (h : Ascending cmp V) (hk : V[k]? = some c) :
    V.find? (fun p => cmp c.1 p.1 = .lt) = V[k + 1]? := by
  have hafter := (split_at hk ▸ h).find?_after
  rwa [← split_at hk, List.head?_drop] at hafter

theorem Ascending.find?_prev (h : Ascending cmp V) (hk : V[k]? = some c) :
    V.reverse.find? (fun p => cmp p.1 c.1 = .lt) = (V.take k).getLast? := by
  have hbefore := (split_at hk ▸ h).find?_before
  rwa [← split_at hk] at hbefore

/-- **A cursor that starts at the first pair and moves on goes through the list.** -/
theorem Ascending.run_listing (h : Ascending cmp V) {j : ℕ} (hj : j ≤ V.length) :
    Run.runFrom (stepWith cmp V) none (.seekToFirst :: List.replicate j .next) = some V[j]? := by
  induction j with
  | zero => rw [← List.head?_eq_getElem?]; rfl
  | succ j ih =>
    have hlist : (.seekToFirst :: List.replicate (j + 1) .next : List (Op K)) =
        (.seekToFirst :: List.replicate j .next) ++ [.next] := by
      rw [List.replicate_succ', List.cons_append]
    have hget : V[j]? = some (V.get ⟨j, hj⟩) := List.getElem?_eq_getElem hj
    rw [hlist, Run.runFrom_append, ih (by omega), Option.bind_some, hget]
    exact congrArg some (h.find?_next hget)

end Comparator

end McfKv.Cursor
