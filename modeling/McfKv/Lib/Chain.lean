import Mathlib.Data.List.Basic
import Mathlib.Data.List.Nodup
import Mathlib.Data.List.TakeWhile

/-!
# Linked chains

A memory of links is a function from places to the link stored there. A place is the head of a
list, `none`, or a node; a link is a null pointer, `none`, or a node, and a place may hold no link at
all. `Chain f x l` says that the links lead from the place `x` through the nodes `l` to a null
pointer.
-/

namespace McfKv

variable {α : Type*}

/-- The links lead from the place through the nodes of the list to a null pointer. -/
def Chain (f : Option α → Option (Option α)) : Option α → List α → Prop
  | x, [] => f x = some none
  | x, y :: l => f x = some (some y) ∧ Chain f (some y) l

namespace Chain

variable {f g : Option α → Option (Option α)}

variable {x : Option α} {l before rest : List α}

theorem head (h : Chain f x l) : f x = some l.head? := by
  cases l with
  | nil => exact h
  | cons y l => exact h.1

/-- A chain depends on the links of its own places only. -/
theorem congr (h : Chain f x l) (hx : g x = f x) (hl : ∀ y ∈ l, g (some y) = f (some y)) :
    Chain g x l := by
  induction l generalizing x with
  | nil => exact hx.trans h
  | cons y l ih =>
    exact ⟨hx.trans h.1, ih h.2 (hl y List.mem_cons_self) fun z hz =>
      hl z (List.mem_cons_of_mem _ hz)⟩

/-- The last place of a nonempty list does not depend on where it starts. -/
theorem getLast?_cons_or (b : α) (before : List α) (x : Option α) :
    (b :: before).getLast?.or x = before.getLast?.or (some b) := by
  rw [List.getLast?_cons]
  cases before.getLast? <;> rfl

/-- A chain can be entered at any of its nodes. -/
theorem append (h : Chain f x (before ++ rest)) : Chain f (before.getLast?.or x) rest := by
  induction before generalizing x with
  | nil => exact h
  | cons b before ih =>
    rw [getLast?_cons_or]
    exact ih h.2

/-- **Two stores put a new node into a chain**: the node points to what comes after it, and the place
before it points to the node. -/
theorem insert {n : α} (h : Chain f x (before ++ rest)) (hnode : g (some n) = some rest.head?)
    (hplace : g (before.getLast?.or x) = some (some n))
    (hothers : ∀ y, y ≠ some n → y ≠ before.getLast?.or x → g y = f y)
    (hnodup : (before ++ rest).Nodup) (hx : ∀ y ∈ before ++ rest, x ≠ some y)
    (hn : n ∉ before ++ rest) (hxn : x ≠ some n) : Chain g x (before ++ n :: rest) := by
  induction before generalizing x with
  | nil =>
    have hlast : (([] : List α).getLast?.or x) = x := rfl
    rw [hlast] at hplace hothers
    refine ⟨hplace, ?_⟩
    have hsame : ∀ y ∈ rest, g (some y) = f (some y) := fun y hy =>
      hothers (some y) (fun heq => hn (by cases heq; exact hy)) (hx y hy).symm
    cases rest with
    | nil => exact hnode
    | cons r rest =>
      exact ⟨hnode, h.2.congr (hsame r List.mem_cons_self) fun y hy =>
        hsame y (List.mem_cons_of_mem _ hy)⟩
  | cons b before ih =>
    rw [getLast?_cons_or] at hplace hothers
    rw [List.cons_append, List.nodup_cons] at hnodup
    -- the place that changes is one of the nodes, and `x` is none of them
    have hxplace : x ≠ before.getLast?.or (some b) := by
      cases hb : before.getLast? with
      | none => exact hx b (by simp)
      | some z => exact hx z (by simp [List.mem_of_getLast? hb])
    refine ⟨(hothers x hxn hxplace).trans h.1, ih h.2 hplace hothers hnodup.2 (fun y hy heq => ?_)
      (fun hy => hn (List.mem_cons_of_mem _ hy)) fun heq => hn ?_⟩
    · cases heq
      exact hnodup.1 hy
    · cases heq
      exact List.mem_cons_self

end Chain

end McfKv
