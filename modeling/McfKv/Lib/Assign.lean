import Mathlib.Logic.Function.Basic
import Mathlib.Data.List.Basic

/-!
# Lists of assignments

`assign m items` is the partial map `m` after a list of assignments, in order. A key reads
the value of its last assignment, and its old value when the list does not mention it.

Batches of assignments that wait in a queue are assigned one after the other, so the map
that a queue is going to produce does not change when its first batch is applied
(`assign_append`).
-/

namespace McfKv.Assign

variable {K V : Type*} [DecidableEq K]

/-- The map after a list of assignments. -/
def assign (m : K → Option V) (items : List (K × V)) : K → Option V :=
  items.foldl (fun m kv => Function.update m kv.1 (some kv.2)) m

@[simp] theorem assign_nil (m : K → Option V) : assign m [] = m := rfl

@[simp] theorem assign_cons (m : K → Option V) (kv : K × V) (items : List (K × V)) :
    assign m (kv :: items) = assign (Function.update m kv.1 (some kv.2)) items := rfl

theorem assign_append (m : K → Option V) (items items' : List (K × V)) :
    assign m (items ++ items') = assign (assign m items) items' :=
  List.foldl_append

theorem assign_of_forall_ne {items : List (K × V)} {k : K} (h : ∀ kv ∈ items, kv.1 ≠ k)
    (m : K → Option V) : assign m items k = m k := by
  induction items generalizing m with
  | nil => rfl
  | cons kv items ih =>
    rw [assign_cons, ih fun kv' hkv' => h kv' (List.mem_cons_of_mem _ hkv')]
    exact Function.update_of_ne (h kv List.mem_cons_self).symm ..

theorem assign_of_mem {items : List (K × V)} {k : K} (h : ∃ kv ∈ items, kv.1 = k)
    (m : K → Option V) : ∃ v, (k, v) ∈ items ∧ assign m items k = some v := by
  induction items generalizing m with
  | nil =>
    obtain ⟨kv, hkv, -⟩ := h
    exact absurd hkv List.not_mem_nil
  | cons kv items ih =>
    rw [assign_cons]
    by_cases hrest : ∃ kv' ∈ items, kv'.1 = k
    · obtain ⟨v, hv, heq⟩ := ih hrest (Function.update m kv.1 (some kv.2))
      exact ⟨v, List.mem_cons_of_mem _ hv, heq⟩
    · push Not at hrest
      rw [assign_of_forall_ne hrest]
      obtain ⟨kv', hkv', rfl⟩ := h
      rcases List.mem_cons.mp hkv' with rfl | hmem
      · exact ⟨kv'.2, List.mem_cons_self, Function.update_self ..⟩
      · exact absurd rfl (hrest kv' hmem)

theorem assign_eq_some {items : List (K × V)} {k : K} {m : K → Option V} {v : V}
    (h : assign m items k = some v) :
    (k, v) ∈ items ∨ ((∀ kv ∈ items, kv.1 ≠ k) ∧ m k = some v) := by
  by_cases hmem : ∃ kv ∈ items, kv.1 = k
  · obtain ⟨v', hv', heq⟩ := assign_of_mem hmem m
    rw [Option.some.inj (h.symm.trans heq)]
    exact Or.inl hv'
  · push Not at hmem
    rw [assign_of_forall_ne hmem] at h
    exact Or.inr ⟨hmem, h⟩

end McfKv.Assign
