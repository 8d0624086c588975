import McfKv.Db.SkipList

/-!
# The iterator of the skip list (`SkipList::Iterator` in `db/skiplist.h`)

The iterator is a pointer to a node. `Next` follows the link on level 0; `Prev` has no links to
follow and searches for the last node before the key. `iterStep_simulates` says that each call does
what it does on a cursor over the sorted keys: the pointer is at the head of what is left of level
0.
-/

namespace McfKv

open Cursor

namespace SkipList

variable {K : Type} (cmp : K → K → Ordering)

/-- One call on `SkipList::Iterator`; `none` is a null `node_`. `FindLessThan` and `FindLast` return
`head_` where there is no node, and the iterator then becomes invalid. -/
def iterStep (s : SkipList K) : Option ℕ → Cursor.Op K → Option (Option ℕ)
  | _, .seek target => (s.findGreaterOrEqual cmp target).map Prod.fst
  | _, .seekToFirst => s.next none 0
  | _, .seekToLast => s.findLast
  | some i, .next => s.next (some i) 0
  | some i, .prev => (s.nodes[i]?).bind fun n => s.findLessThan cmp n.key
  | none, .next => none
  | none, .prev => none

/-- The keys of the list, as a map without values. -/
def entries (s : SkipList K) (ids : ℕ → List ℕ) : List (K × Unit) :=
  (s.keysOf (ids 0)).map fun k => (k, ())

/-- The pointer and the cursor are at the head of what is left of level 0. -/
def At (s : SkipList K) (ids : ℕ → List ℕ) (node : Option ℕ) (c : Option (K × Unit)) : Prop :=
  ∃ before rest, ids 0 = before ++ rest ∧ node = rest.head? ∧
    c = (s.keysOf rest).head?.map fun k => (k, ())

variable {cmp} {s : SkipList K} {ids : ℕ → List ℕ}

theorem Wf.ascending_entries (h : s.Wf cmp ids) : Ascending cmp (s.entries ids) :=
  List.pairwise_map.mpr h.sorted

theorem Wf.read_of_at (h : s.Wf cmp ids) {node : Option ℕ} {c : Option (K × Unit)}
    (hat : s.At ids node c) : s.read node = some (c.map Prod.fst) := by
  obtain ⟨before, rest, hsplit, rfl, rfl⟩ := hat
  rw [read_head? fun i hi => h.allocated i (by rw [hsplit]; exact List.mem_append_right _ hi)]
  simp [Function.comp_def]

theorem Wf.at_getLast? (h : s.Wf cmp ids) {before rest : List ℕ} (hsplit : ids 0 = before ++ rest) :
    s.At ids before.getLast? ((s.keysOf before).getLast?.map fun k => (k, ())) := by
  rcases List.eq_nil_or_concat before with rfl | ⟨before, i, rfl⟩
  · exact ⟨ids 0, [], by simp, rfl, rfl⟩
  · have hi : i < s.nodes.length := h.allocated i (by rw [hsplit]; simp)
    refine ⟨before, i :: rest, by simpa using hsplit, by simp, ?_⟩
    simp [keysOf, List.getElem?_eq_getElem hi]

theorem Wf.at_cases (h : s.Wf cmp ids) {node : Option ℕ} {c : Option (K × Unit)}
    (hat : s.At ids node c) :
    (node = none ∧ c = none) ∨ ∃ before i n rest, node = some i ∧ c = some (n.key, ()) ∧
      s.nodes[i]? = some n ∧ ids 0 = before ++ i :: rest ∧
      s.entries ids = (s.keysOf before).map (fun k => (k, ())) ++
        (n.key, ()) :: (s.keysOf rest).map fun k => (k, ()) := by
  obtain ⟨before, rest, hsplit, rfl, rfl⟩ := hat
  cases rest with
  | nil => exact .inl ⟨rfl, rfl⟩
  | cons i rest =>
    obtain ⟨n, hn⟩ : ∃ n, s.nodes[i]? = some n :=
      ⟨_, List.getElem?_eq_getElem (h.allocated i (by rw [hsplit]; simp))⟩
    have hkeys : s.keysOf (i :: rest) = n.key :: s.keysOf rest := by simp [keysOf, hn]
    refine .inr ⟨before, i, n, rest, rfl, by rw [hkeys]; rfl, hn, hsplit, ?_⟩
    rw [entries, hsplit, keysOf_append, hkeys, List.map_append, List.map_cons]

variable [Std.TransCmp cmp]

/-- **Each call does what it does on a cursor over the keys.** -/
theorem Wf.iterStep_simulates (h : s.Wf cmp ids) (node : Option ℕ) (c : Option (K × Unit))
    (op : Cursor.Op K) (hat : s.At ids node c) :
    Option.Rel (s.At ids) (s.iterStep cmp node op) (stepWith cmp (s.entries ids) c op) := by
  cases op with
  | seek target =>
    rw [iterStep, h.findGreaterOrEqual_eq, Option.map_some]
    refine .some ⟨_, _, (front_append_back cmp s target (ids 0)).symm, rfl, ?_⟩
    rw [h.head?_keysOf_back, entries, List.find?_map]
    rfl
  | seekToFirst =>
    have hfirst : s.next none 0 = some (ids 0).head? := (h.chain 0 (by decide)).head
    rw [iterStep, hfirst]
    refine .some ⟨[], ids 0, rfl, rfl, ?_⟩
    rw [entries, List.head?_map]
  | seekToLast =>
    rw [iterStep, h.findLast_eq]
    have hlast := h.at_getLast? (List.append_nil (ids 0)).symm
    rw [← List.getLast?_map] at hlast
    exact .some hlast
  | next =>
    rcases h.at_cases hat with ⟨rfl, rfl⟩ | ⟨before, i, n, rest, rfl, rfl, -, hsplit, hentries⟩
    · exact .none
    · have hnext : s.next (some i) 0 = some rest.head? := by
        have hchain := h.chain 0 (by decide)
        rw [hsplit] at hchain
        exact hchain.append.2.head
      have hafter := (hentries ▸ h.ascending_entries).find?_after
      rw [iterStep, hnext, hentries, stepWith, hafter, List.head?_map]
      exact .some ⟨before ++ [i], rest, by simpa using hsplit, rfl, rfl⟩
  | prev =>
    rcases h.at_cases hat with ⟨rfl, rfl⟩ | ⟨-, i, n, -, rfl, rfl, hn, -, -⟩
    · exact .none
    · have hlast := h.at_getLast? (front_append_back cmp s n.key (ids 0)).symm
      rw [h.getLast?_keysOf_front] at hlast
      rw [iterStep, hn, Option.bind_some, h.findLessThan_eq, stepWith, entries, ← List.map_reverse,
        List.find?_map]
      exact .some hlast

end SkipList

end McfKv
