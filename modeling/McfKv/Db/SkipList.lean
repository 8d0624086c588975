import Mathlib.Data.List.Perm.Subperm
import McfKv.Lib.Chain
import McfKv.Lib.Cursor
import McfKv.Lib.Run

/-!
# The skip list (`db/skiplist.h`)

A node has a key and an array of links, one for each level below its height; level 0 links all
nodes. Nodes are never removed, so a pointer is the index of a node in the order of allocation. A
place whose link is read is `head_`, which is `none` here, or a node; a pointer is null, which is
`none` here, or a node.

A link that nobody has stored yet has no value. Reading one, or a key behind a pointer to nothing,
has no result, so that a search with a result has read initialised links only. The loops of the
three searches are one definition, `descend`, and have a bound on the number of their turns; that
they have a result says that they end within it.

`Insert` is the list of its stores (`insertStores`), and each prefix of the list is a state that a
reader may find. The invariant `Wf` says what the levels link, and holds in all of these states
(`Wf.stage`): a reader needs no more than that the levels are sorted and nested, which raising
`max_height_` and publishing from the bottom keep. `frozen_reads` is the result for readers.
-/

namespace McfKv

open Cursor

/-- `enum { kMaxHeight = 12 }`. -/
def kMaxHeight : ℕ := 12

variable {K : Type}

/-- `struct Node`, without its links. -/
structure SkipNode (K : Type) where
  key : K
  height : ℕ
deriving DecidableEq, Repr

/-- `class SkipList`: the nodes, the links that were stored, and `max_height_`. -/
structure SkipList (K : Type) where
  nodes : List (SkipNode K)
  next : Option ℕ → ℕ → Option (Option ℕ)
  maxHeight : ℕ

namespace SkipList

/-- `SkipList::SkipList`. -/
def new : SkipList K where
  nodes := []
  next := fun x level => if x = none ∧ level < kMaxHeight then some none else none
  maxHeight := 1

/-- The number of links of a place. -/
def heightOf (s : SkipList K) : Option ℕ → ℕ
  | none => kMaxHeight
  | some i => (s.nodes[i]?).elim 0 SkipNode.height

/-! ## The searches -/

/-- The key behind a pointer; `none` where the pointer leads to nothing. -/
def read (s : SkipList K) : Option ℕ → Option (Option K)
  | none => some none
  | some i => (s.nodes[i]?).map fun n => some n.key

/-- The loop of the searches: `go` tells for the key of the next node whether to move on to it. The
result has the place where the loop stops at level 0, the pointer there, and the places at which it
has left the levels, the array `prev`. -/
def descend (s : SkipList K) (go : K → Bool) :
    ℕ → Option ℕ → ℕ → List (Option ℕ) → Option (Option ℕ × Option ℕ × List (Option ℕ))
  | 0, _, _, _ => none
  | fuel + 1, x, level, prev => do
    let next ← s.next x level
    let key ← s.read next
    if key.any go then descend s go fuel next level prev
    else if level = 0 then return (x, next, x :: prev)
    else descend s go fuel x (level - 1) (x :: prev)

/-- A search from `head_` on the highest level; on each level the loop visits a node at most
once. -/
def search (s : SkipList K) (go : K → Bool) : Option (Option ℕ × Option ℕ × List (Option ℕ)) :=
  s.descend go (s.maxHeight * (s.nodes.length + 1)) none (s.maxHeight - 1) []

variable (cmp : K → K → Ordering)

/-- `SkipList::KeyIsAfterNode` for a node with the key `k`. -/
def keyIsAfterNode (key k : K) : Bool := cmp k key = .lt

/-- `SkipList::FindGreaterOrEqual`: the node, and `prev`. -/
def findGreaterOrEqual (s : SkipList K) (key : K) : Option (Option ℕ × List (Option ℕ)) :=
  (s.search (keyIsAfterNode cmp key)).map Prod.snd

/-- `SkipList::FindLessThan`, which writes the same test out; `none` is `head_`. -/
def findLessThan (s : SkipList K) (key : K) : Option (Option ℕ) :=
  (s.search (keyIsAfterNode cmp key)).map Prod.fst

/-- `SkipList::FindLast`; `none` is `head_`. -/
def findLast (s : SkipList K) : Option (Option ℕ) := (s.search fun _ => true).map Prod.fst

/-! ## `Insert` -/

/-- What `Insert` does to the list, one store after the other. -/
inductive Store (K : Type) where
  | setMaxHeight (height : ℕ)
  | newNode (key : K) (height : ℕ)
  /-- `x->NoBarrier_SetNext(level, prev->NoBarrier_Next(level))`. -/
  | initLink (x : ℕ) (level : ℕ) (prev : Option ℕ)
  /-- `prev->SetNext(level, x)`. -/
  | publish (prev : Option ℕ) (level : ℕ) (x : ℕ)

/-- `Node::SetNext`; a place has no links from its height on. -/
def setNext (s : SkipList K) (x : Option ℕ) (level : ℕ) (pointer : Option ℕ) :
    Option (SkipList K) :=
  if level < s.heightOf x then
    some { s with
      next := fun y l => if y = x ∧ l = level then some pointer else s.next y l }
  else none

/-- One store. -/
def store (s : SkipList K) : Store K → Option (SkipList K)
  | .setMaxHeight height => some { s with maxHeight := height }
  | .newNode key height => some { s with nodes := s.nodes ++ [⟨key, height⟩] }
  | .initLink x level prev => (s.next prev level).bind (s.setNext (some x) level)
  | .publish prev level x => s.setNext prev level (some x)

/-- The stores of the loop over the levels, for the node `x`. -/
def linkStores (x : ℕ) (prev : List (Option ℕ)) (height : ℕ) : List (Store K) :=
  (List.range height).flatMap fun i => [.initLink x i (prev.getD i none), .publish (prev.getD i none) i x]

/-- The stores of `Insert` after its search; `prev[i]` is `head_` from the old height on. -/
def storesAfter (s : SkipList K) (key : K) (height : ℕ) (prev : List (Option ℕ)) :
    List (Store K) :=
  (if s.maxHeight < height then [.setMaxHeight height] else []) ++ .newNode key height ::
    linkStores s.nodes.length prev height

/-- The stores of `Insert` for a node of the given height, if its assertion holds. -/
def insertStores (s : SkipList K) (key : K) (height : ℕ) : Option (List (Store K)) := do
  let (x, prev) ← s.findGreaterOrEqual cmp key
  let found ← s.read x
  -- `assert(x == NULL || !Equal(key, x->key))`
  if found.all fun k => cmp key k ≠ .eq then return s.storesAfter key height prev else none

/-- `SkipList::Insert` for a node of the given height. -/
def insert (s : SkipList K) (key : K) (height : ℕ) : Option (SkipList K) :=
  (s.insertStores cmp key height).bind (Run.runFrom store s)

/-! ## What the levels link -/

/-- The node `i` exists, and its key satisfies the test. -/
def goes (s : SkipList K) (go : K → Bool) (i : ℕ) : Bool := (s.nodes[i]?).any fun n => go n.key

/-- The nodes exist, and the key of the first is before that of the second. -/
def Before (s : SkipList K) (i j : ℕ) : Prop :=
  ∃ m n, s.nodes[i]? = some m ∧ s.nodes[j]? = some n ∧ cmp m.key n.key = .lt

/-- **The invariant**: level `l` links the nodes `ids l`, sorted; a level links nodes of the level
below it only. -/
structure Wf (s : SkipList K) (ids : ℕ → List ℕ) : Prop where
  chain : ∀ l < kMaxHeight, Chain (fun x => s.next x l) none (ids l)
  nested : ∀ l, ids (l + 1) ⊆ ids l
  ascending : ∀ l, (ids l).Pairwise (s.Before cmp)
  allocated : ∀ i ∈ ids 0, i < s.nodes.length
  tall : ∀ l, ∀ i ∈ ids l, l < s.heightOf (some i)
  top : ∀ l, s.maxHeight ≤ l → ids l = []
  maxHeight_pos : 0 < s.maxHeight
  maxHeight_le : s.maxHeight ≤ kMaxHeight

theorem new_wf : (new : SkipList K).Wf cmp fun _ => [] where
  chain l hl := by simp [Chain, new, hl]
  nested _ := List.Subset.refl _
  ascending _ := List.Pairwise.nil
  allocated := by simp
  tall := by simp
  top _ _ := rfl
  maxHeight_pos := Nat.one_pos
  maxHeight_le := show 1 ≤ kMaxHeight by decide

variable {cmp} {s : SkipList K} {ids : ℕ → List ℕ}

variable {l : List ℕ} {i : ℕ} {go : K → Bool} {key : K}

theorem Wf.mem_zero (h : s.Wf cmp ids) {l : ℕ} (hi : i ∈ ids l) : i ∈ ids 0 := by
  induction l with
  | zero => exact hi
  | succ l ih => exact ih (h.nested l hi)

theorem Wf.lt_length (h : s.Wf cmp ids) {l : ℕ} (hi : i ∈ ids l) : i < s.nodes.length :=
  h.allocated i (h.mem_zero hi)

/-! ## What the searches find -/

/-- **One level of the loop**: it moves on through the nodes that satisfy the test, and then leaves
the level. -/
theorem descend_level (go : K → Bool) (level : ℕ) (prev : List (Option ℕ)) (fuel : ℕ)
    (rest : List ℕ) : ∀ x : Option ℕ, Chain (fun x => s.next x level) x rest →
      (∀ i ∈ rest, i < s.nodes.length) →
      s.descend go (fuel + 1 + (rest.takeWhile (s.goes go)).length) x level prev =
        let x' := (rest.takeWhile (s.goes go)).getLast?.or x
        if level = 0 then some (x', (rest.dropWhile (s.goes go)).head?, x' :: prev)
        else s.descend go fuel x' (level - 1) (x' :: prev) := by
  induction rest with
  | nil =>
    intro x hchain _
    have hnext : s.next x level = some none := hchain
    simp [descend, hnext, read]
  | cons y rest ih =>
    intro x hchain hlt
    have hnext : s.next x level = some (some y) := hchain.1
    obtain ⟨n, hn⟩ : ∃ n, s.nodes[y]? = some n :=
      ⟨_, List.getElem?_eq_getElem (hlt y List.mem_cons_self)⟩
    have hgoes : s.goes go y = go n.key := by simp [goes, hn]
    cases hgo : go n.key with
    | true =>
      have hrest := ih (some y) hchain.2 fun i hi => hlt i (List.mem_cons_of_mem _ hi)
      rw [List.takeWhile_cons_of_pos (hgoes.trans hgo),
        List.dropWhile_cons_of_pos (hgoes.trans hgo), Chain.getLast?_cons_or,
        List.length_cons, ← Nat.add_assoc, descend, hnext]
      simp only [Option.bind_eq_bind, Option.bind_some, read, hn, Option.map_some,
        Option.any_some, hgo, if_true]
      exact hrest
    | false =>
      rw [List.takeWhile_cons_of_neg (by simp [hgoes, hgo]),
        List.dropWhile_cons_of_neg (by simp [hgoes, hgo])]
      simp [descend, hnext, read, hn, hgo]

/-- The test holds for all keys before one for which it holds. -/
def Downward (cmp : K → K → Ordering) (go : K → Bool) : Prop :=
  ∀ a b, go b → cmp a b = .lt → go a

/-- The place where a level is left. -/
def leave (s : SkipList K) (go : K → Bool) (l : List ℕ) : Option ℕ :=
  (l.takeWhile (s.goes go)).getLast?

/-- A node that satisfies the test has only such nodes before it. -/
theorem goes_of_before (hgo : Downward cmp go) {j : ℕ} (hij : s.Before cmp i j) (hj : s.goes go j) :
    s.goes go i := by
  obtain ⟨m, n, hm, hn, hlt⟩ := hij
  simp only [goes, hn, Option.any_some, hm] at hj ⊢
  exact hgo _ _ hj hlt

theorem Wf.split_below (h : s.Wf cmp ids) (hgo : Downward cmp go) (l : ℕ) :
    ∃ before rest, ids l = before ++ rest ∧ before.getLast? = s.leave go (ids (l + 1)) ∧
      ∀ i ∈ before, s.goes go i := by
  cases hleave : s.leave go (ids (l + 1)) with
  | none => exact ⟨[], ids l, rfl, rfl, by simp⟩
  | some i =>
    have hmem : i ∈ (ids (l + 1)).takeWhile (s.goes go) := List.mem_of_getLast? hleave
    have hi : s.goes go i := List.mem_takeWhile_imp hmem
    obtain ⟨before, rest, hsplit⟩ :=
      List.append_of_mem (h.nested l ((List.takeWhile_sublist _).subset hmem))
    refine ⟨before ++ [i], rest, by simp [hsplit], by simp, fun j hj => ?_⟩
    have hasc := h.ascending l
    rw [hsplit] at hasc
    rcases List.mem_append.mp hj with hj | hj
    · exact goes_of_before hgo ((List.pairwise_append.mp hasc).2.2 j hj i List.mem_cons_self) hi
    · obtain rfl := List.mem_singleton.mp hj
      exact hi

/-! ## The keys of nodes -/

/-- The keys of some nodes. -/
def keysOf (s : SkipList K) (l : List ℕ) : List K := l.filterMap fun i => (s.nodes[i]?).map SkipNode.key

theorem keysOf_append (l l' : List ℕ) : s.keysOf (l ++ l') = s.keysOf l ++ s.keysOf l' :=
  List.filterMap_append

theorem read_head? (hl : ∀ i ∈ l, i < s.nodes.length) :
    s.read l.head? = some (s.keysOf l).head? := by
  cases l with
  | nil => rfl
  | cons i l =>
    have hi := List.getElem?_eq_getElem (hl i List.mem_cons_self)
    simp [read, keysOf, hi]

theorem read_getLast? (hl : ∀ i ∈ l, i < s.nodes.length) :
    s.read l.getLast? = some (s.keysOf l).getLast? := by
  rw [List.getLast?_eq_head?_reverse, read_head? (by simpa using hl), keysOf, List.filterMap_reverse,
    List.getLast?_eq_head?_reverse]
  rfl

theorem keysOf_takeWhile (go : K → Bool) (hl : ∀ i ∈ l, i < s.nodes.length) :
    s.keysOf (l.takeWhile (s.goes go)) = (s.keysOf l).takeWhile go ∧
      s.keysOf (l.dropWhile (s.goes go)) = (s.keysOf l).dropWhile go := by
  induction l with
  | nil => exact ⟨rfl, rfl⟩
  | cons i l ih =>
    obtain ⟨htake, hdrop⟩ := ih fun j hj => hl j (List.mem_cons_of_mem _ hj)
    obtain ⟨n, hn⟩ : ∃ n, s.nodes[i]? = some n :=
      ⟨_, List.getElem?_eq_getElem (hl i List.mem_cons_self)⟩
    have hgoes : s.goes go i = go n.key := by simp [goes, hn]
    have hkeys : ∀ l, s.keysOf (i :: l) = n.key :: s.keysOf l := fun l => by simp [keysOf, hn]
    rw [hkeys]
    cases hgo : go n.key with
    | true =>
      rw [List.takeWhile_cons_of_pos (hgoes.trans hgo), List.takeWhile_cons_of_pos hgo,
        List.dropWhile_cons_of_pos (hgoes.trans hgo), List.dropWhile_cons_of_pos hgo, hkeys, htake]
      exact ⟨rfl, hdrop⟩
    | false =>
      have hneg : ¬ s.goes go i = true := by simp [hgoes, hgo]
      rw [List.takeWhile_cons_of_neg hneg, List.takeWhile_cons_of_neg (by simp [hgo]),
        List.dropWhile_cons_of_neg hneg, List.dropWhile_cons_of_neg (by simp [hgo]), hkeys]
      exact ⟨rfl, rfl⟩

/-- Keys in ascending order. -/
def Sorted (cmp : K → K → Ordering) (L : List K) : Prop := L.Pairwise fun a b => cmp a b = .lt

theorem Wf.sorted (h : s.Wf cmp ids) : Sorted cmp (s.keysOf (ids 0)) := by
  refine List.Pairwise.filterMap _ ?_ (h.ascending 0)
  rintro i j ⟨m, n, hm, hn, hlt⟩ a ha b hb
  simp only [hm, hn, Option.map_some, Option.some.injEq] at ha hb
  rw [← ha, ← hb]
  exact hlt

/-- **The three searches return the right nodes** of a list with the sorted keys `L`: the first key
that is not before the target, the last one before it, and the last one. -/
structure Answers (cmp : K → K → Ordering) (s : SkipList K) (L : List K) : Prop where
  findGreaterOrEqual : ∀ key, (s.findGreaterOrEqual cmp key).bind (fun r => s.read r.1) =
    some (L.find? fun k => cmp k key ≠ .lt)
  findLessThan : ∀ key, (s.findLessThan cmp key).bind s.read =
    some (L.reverse.find? fun k => cmp k key = .lt)
  findLast : s.findLast.bind s.read = some L.getLast?

theorem getLast?_takeWhile (hgo : Downward cmp go) {L : List K} (hL : Sorted cmp L) :
    (L.takeWhile go).getLast? = L.reverse.find? go := by
  have hfilter : L.takeWhile go = L.filter go := by
    induction L with
    | nil => rfl
    | cons a L ih =>
      obtain ⟨hhead, htail⟩ := List.pairwise_cons.mp hL
      by_cases ha : go a
      · rw [List.takeWhile_cons_of_pos ha, List.filter_cons_of_pos ha, ih htail]
      · rw [List.takeWhile_cons_of_neg ha, List.filter_cons_of_neg ha, eq_comm,
          List.filter_eq_nil_iff]
        exact fun b hb hgb => ha (hgo a b hgb (hhead b hb))
  rw [hfilter, List.getLast?_eq_head?_reverse, ← List.filter_reverse, List.head?_filter]

/-! ## What the searches return -/

/-- The nodes of a level that come before the key. -/
def front (cmp : K → K → Ordering) (s : SkipList K) (key : K) (l : List ℕ) : List ℕ :=
  l.takeWhile (s.goes (keyIsAfterNode cmp key))

/-- The nodes of a level that come after the key. -/
def back (cmp : K → K → Ordering) (s : SkipList K) (key : K) (l : List ℕ) : List ℕ :=
  l.dropWhile (s.goes (keyIsAfterNode cmp key))

theorem front_append_back (cmp : K → K → Ordering) (s : SkipList K) (key : K) (l : List ℕ) :
    s.front cmp key l ++ s.back cmp key l = l := List.takeWhile_append_dropWhile

theorem front_subset (l : List ℕ) : s.front cmp key l ⊆ l := (List.takeWhile_sublist _).subset

theorem back_subset (l : List ℕ) : s.back cmp key l ⊆ l := (List.dropWhile_sublist _).subset

theorem Wf.head?_keysOf_back (h : s.Wf cmp ids) (key : K) :
    (s.keysOf (s.back cmp key (ids 0))).head? =
      (s.keysOf (ids 0)).find? fun k => cmp k key ≠ .lt := by
  rw [back, (keysOf_takeWhile _ h.allocated).2]
  simp only [List.find?_eq_head?_dropWhile_not, decide_not, Bool.not_not]
  rfl

variable [Std.TransCmp cmp]

section

variable (h : s.Wf cmp ids)

include h

theorem Wf.nodup (l : ℕ) : (ids l).Nodup := by
  refine (h.ascending l).imp ?_
  rintro i j ⟨m, n, hm, hn, hlt⟩ rfl
  rw [hm] at hn
  obtain rfl := Option.some.inj hn
  exact cmp_self_ne_lt _ hlt

theorem Wf.length_le (l : ℕ) : (ids l).length ≤ s.nodes.length := by
  have hsub : ids l ⊆ List.range s.nodes.length := fun i hi => List.mem_range.mpr (h.lt_length hi)
  simpa using (List.subperm_of_subset (h.nodup l) hsub).length_le

/-- One level of the loop, at a place before which all nodes satisfy the test. -/
theorem Wf.descend_level (go : K → Bool) {level : ℕ} (hlevel : level < kMaxHeight)
    {before rest : List ℕ} (hsplit : ids level = before ++ rest)
    (hbefore : ∀ i ∈ before, s.goes go i) {fuel : ℕ} (hfuel : s.nodes.length + 1 ≤ fuel)
    (prev : List (Option ℕ)) : ∃ fuel', fuel ≤ fuel' + (s.nodes.length + 1) ∧
      s.descend go fuel before.getLast? level prev = let x := s.leave go (ids level)
        if level = 0 then some (x, ((ids level).dropWhile (s.goes go)).head?, x :: prev)
        else s.descend go fuel' x (level - 1) (x :: prev) := by
  have hchain := h.chain level hlevel
  rw [hsplit] at hchain
  have hrest : Chain (fun x => s.next x level) before.getLast? rest := by
    simpa using hchain.append
  have hmoves : (rest.takeWhile (s.goes go)).length ≤ s.nodes.length := by
    have hlen := h.length_le level
    rw [hsplit, List.length_append] at hlen
    have := (List.takeWhile_sublist (s.goes go) (l := rest)).length_le
    omega
  have hlevelEq := SkipList.descend_level go level prev
    (fuel - 1 - (rest.takeWhile (s.goes go)).length) rest before.getLast? hrest fun i hi =>
      h.lt_length (l := level) (by rw [hsplit]; exact List.mem_append_right _ hi)
  refine ⟨fuel - 1 - (rest.takeWhile (s.goes go)).length, by omega, ?_⟩
  have hsum : fuel - 1 - (rest.takeWhile (s.goes go)).length + 1 +
      (rest.takeWhile (s.goes go)).length = fuel := by omega
  rw [hsum] at hlevelEq
  rw [hlevelEq, hsplit, leave, List.takeWhile_append_of_pos hbefore,
    List.dropWhile_append_of_pos hbefore, List.getLast?_append]

/-- **The loop from any level on**, at a place before which all nodes satisfy the test. -/
theorem Wf.descend_eq (hgo : Downward cmp go) (level : ℕ) :
    ∀ (fuel : ℕ) (before rest : List ℕ) (prev : List (Option ℕ)), level < kMaxHeight →
      ids level = before ++ rest → (∀ i ∈ before, s.goes go i) →
      (level + 1) * (s.nodes.length + 1) ≤ fuel → s.descend go fuel before.getLast? level prev =
        some (s.leave go (ids 0), ((ids 0).dropWhile (s.goes go)).head?,
          (List.range (level + 1)).map (fun l => s.leave go (ids l)) ++ prev) := by
  induction level with
  | zero =>
    intro fuel before rest prev hlevel hsplit hbefore hfuel
    obtain ⟨fuel', -, hdescend⟩ :=
      h.descend_level go hlevel hsplit hbefore (show s.nodes.length + 1 ≤ fuel by omega) prev
    rw [hdescend]
    rfl
  | succ level ih =>
    intro fuel before rest prev hlevel hsplit hbefore hfuel
    rw [Nat.succ_mul] at hfuel
    obtain ⟨fuel', hfuel', hdescend⟩ :=
      h.descend_level go hlevel hsplit hbefore (show s.nodes.length + 1 ≤ fuel by omega) prev
    obtain ⟨below, rest', hbelow, hlast, hgoes⟩ := h.split_below hgo level
    rw [hdescend]
    dsimp only
    rw [if_neg (Nat.succ_ne_zero level), Nat.add_sub_cancel, ← hlast,
      ih fuel' below rest' _ (by omega) hbelow hgoes (by omega), hlast,
      List.range_succ (n := level + 1), List.map_append, List.append_assoc]
    rfl

/-- **What a search finds**: the last node that satisfies the test and the first one that does not,
and on each level the last node that satisfies it. -/
theorem Wf.search_eq (hgo : Downward cmp go) :
    s.search go = some (s.leave go (ids 0), ((ids 0).dropWhile (s.goes go)).head?,
      (List.range s.maxHeight).map fun l => s.leave go (ids l)) := by
  have hpos := h.maxHeight_pos
  have hle := h.maxHeight_le
  have hrun := h.descend_eq hgo (s.maxHeight - 1) (s.maxHeight * (s.nodes.length + 1)) []
    (ids (s.maxHeight - 1)) [] (by omega) rfl (by simp) (by rw [Nat.sub_add_cancel hpos])
  rw [Nat.sub_add_cancel hpos, List.append_nil] at hrun
  exact hrun

end

theorem downward_keyIsAfterNode (key : K) : Downward cmp (keyIsAfterNode cmp key) := by
  intro a b hb hab
  simp only [keyIsAfterNode, decide_eq_true_eq] at hb ⊢
  exact Std.TransCmp.lt_trans hab hb

section

variable (h : s.Wf cmp ids)

include h

theorem Wf.getLast?_keysOf_front (key : K) : (s.keysOf (s.front cmp key (ids 0))).getLast? =
    (s.keysOf (ids 0)).reverse.find? fun k => cmp k key = .lt := by
  rw [front, (keysOf_takeWhile _ h.allocated).1,
    getLast?_takeWhile (downward_keyIsAfterNode key) h.sorted]
  rfl

/-- **What `FindGreaterOrEqual` returns**, with `prev`. -/
theorem Wf.findGreaterOrEqual_eq (key : K) :
    s.findGreaterOrEqual cmp key = some ((s.back cmp key (ids 0)).head?,
      (List.range s.maxHeight).map fun l => (s.front cmp key (ids l)).getLast?) := by
  rw [findGreaterOrEqual, h.search_eq (downward_keyIsAfterNode key)]
  rfl

/-- **What `FindLessThan` returns.** -/
theorem Wf.findLessThan_eq (key : K) :
    s.findLessThan cmp key = some (s.front cmp key (ids 0)).getLast? := by
  rw [findLessThan, h.search_eq (downward_keyIsAfterNode key)]
  rfl

/-- **What `FindLast` returns.** -/
theorem Wf.findLast_eq : s.findLast = some (ids 0).getLast? := by
  have hlast : Downward cmp fun _ => true := fun _ _ _ _ => rfl
  have hall : ∀ i ∈ ids 0, s.goes (fun _ => true) i = true := fun i hi => by
    simp [goes, List.getElem?_eq_getElem (h.allocated i hi)]
  rw [findLast, h.search_eq hlast, Option.map_some, leave, List.takeWhile_eq_self_iff.mpr hall]

theorem Wf.answers : Answers cmp s (s.keysOf (ids 0)) := by
  refine ⟨fun key => ?_, fun key => ?_, ?_⟩
  · rw [h.findGreaterOrEqual_eq, Option.bind_some,
      read_head? fun i hi => h.allocated i (back_subset _ hi), h.head?_keysOf_back]
  · rw [h.findLessThan_eq, Option.bind_some,
      read_getLast? fun i hi => h.allocated i (front_subset _ hi), h.getLast?_keysOf_front]
  · rw [h.findLast_eq, Option.bind_some, read_getLast? h.allocated]

/-! ## The states of an insertion -/

end

/-- **The state of the list during an insertion**: the new node has its links on the levels below
`q`, and it is published on the levels below `p`. -/
def stage (cmp : K → K → Ordering) (s : SkipList K) (ids : ℕ → List ℕ) (key : K) (height p q : ℕ) :
    SkipList K where
  nodes := s.nodes ++ [⟨key, height⟩]
  next := fun y l =>
    if y = some s.nodes.length ∧ l < q then some (s.back cmp key (ids l)).head?
    else if y = (s.front cmp key (ids l)).getLast? ∧ l < p then some (some s.nodes.length)
    else s.next y l
  maxHeight := max s.maxHeight height

/-- The nodes that the levels link in that state. -/
def stageIds (cmp : K → K → Ordering) (s : SkipList K) (ids : ℕ → List ℕ) (key : K) (p l : ℕ) :
    List ℕ :=
  if l < p then s.front cmp key (ids l) ++ s.nodes.length :: s.back cmp key (ids l) else ids l

section Stage

omit [Std.TransCmp cmp]

variable {key : K} {height p q : ℕ}

variable {l i : ℕ} {prev : List (Option ℕ)}

theorem mem_stageIds :
    i ∈ stageIds cmp s ids key p l ↔ i ∈ ids l ∨ (l < p ∧ i = s.nodes.length) := by
  have hmem : i ∈ ids l ↔ i ∈ s.front cmp key (ids l) ∨ i ∈ s.back cmp key (ids l) := by
    rw [← List.mem_append, front_append_back]
  unfold stageIds
  split_ifs with hl
  · simp only [List.mem_append, List.mem_cons, hmem, hl, true_and]
    tauto
  · simp [hl]

theorem stage_nodes_of_lt (hi : i < s.nodes.length) :
    (stage cmp s ids key height p q).nodes[i]? = s.nodes[i]? := List.getElem?_append_left hi

theorem stage_nodes_new :
    (stage cmp s ids key height p q).nodes[s.nodes.length]? = some ⟨key, height⟩ := by
  simp [stage]

section

variable (h : s.Wf cmp ids)

include h

theorem stage_heightOf (hi : i ∈ ids l) :
    (stage cmp s ids key height p q).heightOf (some i) = s.heightOf (some i) := by
  simp only [heightOf, stage_nodes_of_lt (h.lt_length hi)]

theorem Wf.notMem_length (l : ℕ) : s.nodes.length ∉ ids l := fun hmem =>
  absurd (h.lt_length hmem) (lt_irrefl _)

theorem Wf.front_getLast?_ne (l : ℕ) :
    (s.front cmp key (ids l)).getLast? ≠ some s.nodes.length := fun heq =>
  h.notMem_length l (front_subset _ (List.mem_of_getLast? heq))

theorem Wf.lt_of_mem_back [Std.TransCmp cmp] (hnew : ∀ k ∈ s.keysOf (ids 0), cmp key k ≠ .eq)
    {j : ℕ} (hj : j ∈ s.back cmp key (ids l)) :
    ∃ n, s.nodes[j]? = some n ∧ cmp key n.key = .lt := by
  have hmem : j ∈ ids l := back_subset _ hj
  obtain ⟨n, hn⟩ : ∃ n, s.nodes[j]? = some n := ⟨_, List.getElem?_eq_getElem (h.lt_length hmem)⟩
  refine ⟨n, hn, ?_⟩
  -- the first of the nodes that come after does not satisfy the test, and neither do the others
  have hnot : s.goes (keyIsAfterNode cmp key) j = false := by
    have hasc := (h.ascending l).sublist (List.dropWhile_sublist (s.goes (keyIsAfterNode cmp key)))
    have hhead := List.head?_dropWhile_not (s.goes (keyIsAfterNode cmp key)) (ids l)
    unfold back at hj
    cases hback : (ids l).dropWhile (s.goes (keyIsAfterNode cmp key)) with
    | nil => simp [hback] at hj
    | cons b rest =>
      rw [hback] at hj hasc hhead
      have hb : s.goes (keyIsAfterNode cmp key) b = false := by simpa using hhead
      rcases List.mem_cons.mp hj with rfl | hrest
      · exact hb
      · by_contra hgo
        have hgoes := goes_of_before (downward_keyIsAfterNode key) ((List.pairwise_cons.mp hasc).1 j hrest)
          (by simpa using hgo)
        exact absurd hgoes (by simpa using hb)
  have hlt : cmp n.key key ≠ .lt := by simpa [goes, hn, keyIsAfterNode] using hnot
  have hkey : n.key ∈ s.keysOf (ids 0) :=
    List.mem_filterMap.mpr ⟨j, h.mem_zero hmem, by simp [hn]⟩
  cases hcmp : cmp key n.key with
  | lt => rfl
  | eq => exact absurd hcmp (hnew _ hkey)
  | gt => exact absurd (Std.OrientedCmp.lt_of_gt hcmp) hlt

theorem Wf.lt_of_mem_front (hi : i ∈ s.front cmp key (ids l)) :
    ∃ n, s.nodes[i]? = some n ∧ cmp n.key key = .lt := by
  have hmem : i ∈ ids l := front_subset _ hi
  obtain ⟨n, hn⟩ : ∃ n, s.nodes[i]? = some n := ⟨_, List.getElem?_eq_getElem (h.lt_length hmem)⟩
  refine ⟨n, hn, ?_⟩
  simpa [goes, hn, keyIsAfterNode] using List.mem_takeWhile_imp hi

theorem Wf.stage_chain [Std.TransCmp cmp] (hpq : p ≤ q) (hl : l < kMaxHeight) :
    Chain (fun y => (stage cmp s ids key height p q).next y l) none
      (stageIds cmp s ids key p l) := by
  unfold stageIds
  split_ifs with hlp
  · have hchain := h.chain l hl
    rw [← front_append_back cmp s key (ids l)] at hchain
    refine hchain.insert ?_ ?_ ?_ ?_ ?_ ?_ ?_
    · exact if_pos ⟨rfl, by omega⟩
    · rw [Option.or_none]
      have hne : (s.front cmp key (ids l)).getLast? ≠ some s.nodes.length := h.front_getLast?_ne l
      simp [stage, hne, hlp]
    · intro y hy hplace
      rw [Option.or_none] at hplace
      simp [stage, hy, hplace]
    · rw [front_append_back]
      exact h.nodup l
    · exact fun _ _ => by simp
    · rw [front_append_back]
      exact h.notMem_length l
    · simp
  · refine (h.chain l hl).congr ?_ fun y hy => ?_
    · simp [stage, hlp]
    · have hy' : y ≠ s.nodes.length := fun heq => h.notMem_length l (heq ▸ hy)
      simp [stage, hlp, hy']

/-- **The invariant holds in every state of an insertion.** -/
theorem Wf.stage [Std.TransCmp cmp] (hnew : ∀ k ∈ s.keysOf (ids 0), cmp key k ≠ .eq) (hpq : p ≤ q)
    (hp : p ≤ height) (hheight : height ≤ kMaxHeight) :
    (SkipList.stage cmp s ids key height p q).Wf cmp (stageIds cmp s ids key p) := by
  have hold : ∀ {i j : ℕ}, s.Before cmp i j →
      (SkipList.stage cmp s ids key height p q).Before cmp i j := by
    rintro i j ⟨m, n, hm, hn, hlt⟩
    refine ⟨m, n, ?_, ?_, hlt⟩
    · rwa [stage_nodes_of_lt (List.getElem?_eq_some_iff.mp hm).1]
    · rwa [stage_nodes_of_lt (List.getElem?_eq_some_iff.mp hn).1]
  refine ⟨fun l hl => h.stage_chain hpq hl, fun l i hi => ?_, fun l => ?_, fun i hi => ?_,
    fun l i hi => ?_, fun l hl => ?_, ?_, ?_⟩
  · rw [mem_stageIds] at hi ⊢
    rcases hi with hi | ⟨hl, rfl⟩
    · exact .inl (h.nested l hi)
    · exact .inr ⟨by omega, rfl⟩
  · unfold stageIds
    split_ifs with hl
    · have hasc := (h.ascending l).imp hold
      rw [← front_append_back cmp s key (ids l), List.pairwise_append] at hasc
      refine List.pairwise_append.mpr ⟨hasc.1, List.pairwise_cons.mpr ⟨fun j hj => ?_, hasc.2.1⟩,
        fun i hi j hj => ?_⟩
      · obtain ⟨n, hn, hlt⟩ := h.lt_of_mem_back hnew hj
        refine ⟨⟨key, height⟩, n, stage_nodes_new, ?_, hlt⟩
        rwa [stage_nodes_of_lt (List.getElem?_eq_some_iff.mp hn).1]
      · rcases List.mem_cons.mp hj with rfl | hj
        · obtain ⟨n, hn, hlt⟩ := h.lt_of_mem_front hi
          refine ⟨n, ⟨key, height⟩, ?_, stage_nodes_new, hlt⟩
          rwa [stage_nodes_of_lt (List.getElem?_eq_some_iff.mp hn).1]
        · exact hasc.2.2 i hi j hj
    · exact (h.ascending l).imp hold
  · have hlen : (SkipList.stage cmp s ids key height p q).nodes.length = s.nodes.length + 1 := by
      simp [SkipList.stage]
    rw [hlen]
    rcases mem_stageIds.mp hi with hi | ⟨-, rfl⟩
    · exact Nat.lt_succ_of_lt (h.allocated i hi)
    · exact Nat.lt_succ_self _
  · rcases mem_stageIds.mp hi with hi | ⟨hl, rfl⟩
    · rw [stage_heightOf h hi]
      exact h.tall l i hi
    · rw [heightOf, stage_nodes_new]
      exact lt_of_lt_of_le hl hp
  · have hmax : max s.maxHeight height ≤ l := hl
    rw [stageIds, if_neg (by omega)]
    exact h.top l (by omega)
  · exact lt_of_lt_of_le h.maxHeight_pos (le_max_left _ _)
  · exact max_le h.maxHeight_le hheight

theorem Wf.keysOf_stage_zero :
    (SkipList.stage cmp s ids key height 0 q).keysOf (stageIds cmp s ids key 0 0) =
      s.keysOf (ids 0) := by
  refine List.filterMap_congr fun i hi => ?_
  rw [stage_nodes_of_lt (h.allocated i hi)]

theorem Wf.keysOf_stage_pos (hp : 0 < p) :
    ((SkipList.stage cmp s ids key height p q).keysOf (stageIds cmp s ids key p 0)).Perm
      (key :: s.keysOf (ids 0)) := by
  have hsame : ∀ l ⊆ ids 0, (SkipList.stage cmp s ids key height p q).keysOf l = s.keysOf l :=
    fun l hl => List.filterMap_congr fun i hi => by rw [stage_nodes_of_lt (h.allocated i (hl hi))]
  have hnode : ∀ l, (SkipList.stage cmp s ids key height p q).keysOf (s.nodes.length :: l) =
      key :: (SkipList.stage cmp s ids key height p q).keysOf l := fun l =>
    List.filterMap_cons_some (by rw [stage_nodes_new]; rfl)
  rw [stageIds, if_pos hp, keysOf_append, hnode, hsame _ (front_subset _), hsame _ (back_subset _)]
  refine List.perm_middle.trans ?_
  rw [← keysOf_append, front_append_back]

theorem Wf.store_initLink (key : K) (hp : p < height) (hheight : height ≤ kMaxHeight) :
    (SkipList.stage cmp s ids key height p p).store
        (.initLink s.nodes.length p (s.front cmp key (ids p)).getLast?) =
      some (SkipList.stage cmp s ids key height p (p + 1)) := by
  have hne : (s.front cmp key (ids p)).getLast? ≠ some s.nodes.length := h.front_getLast?_ne p
  have hchain := h.chain p (by omega)
  rw [← front_append_back cmp s key (ids p)] at hchain
  have hlink : s.next (s.front cmp key (ids p)).getLast? p = some (s.back cmp key (ids p)).head? := by
    simpa using hchain.append.head
  have hread : (SkipList.stage cmp s ids key height p p).next (s.front cmp key (ids p)).getLast? p =
      some (s.back cmp key (ids p)).head? := by
    simpa [SkipList.stage] using hlink
  have hbound : p < (SkipList.stage cmp s ids key height p p).heightOf (some s.nodes.length) := by
    rw [heightOf, stage_nodes_new]
    exact hp
  rw [store, hread, Option.bind_some, setNext, if_pos hbound]
  congr 1
  unfold SkipList.stage
  congr 1
  funext y l
  by_cases hy : y = some s.nodes.length
  · rcases lt_trichotomy l p with hl | rfl | hl
    · simp [hy, hl, hl.ne, Nat.lt_succ_of_lt hl]
    · simp [hy]
    · simp [hy, hl.ne', not_lt.mpr hl.le, not_lt.mpr (Nat.succ_le_of_lt hl)]
  · simp [hy]

theorem Wf.store_publish (key : K) (hp : p < height) (hheight : height ≤ kMaxHeight) :
    (SkipList.stage cmp s ids key height p (p + 1)).store
        (.publish (s.front cmp key (ids p)).getLast? p s.nodes.length) =
      some (SkipList.stage cmp s ids key height (p + 1) (p + 1)) := by
  have hne : (s.front cmp key (ids p)).getLast? ≠ some s.nodes.length := h.front_getLast?_ne p
  have hbound : p < (SkipList.stage cmp s ids key height p (p + 1)).heightOf
      (s.front cmp key (ids p)).getLast? := by
    cases hlast : (s.front cmp key (ids p)).getLast? with
    | none => exact lt_of_lt_of_le hp hheight
    | some i =>
      have hi : i ∈ ids p := front_subset _ (List.mem_of_getLast? hlast)
      rw [stage_heightOf h hi]
      exact h.tall p i hi
  rw [store, setNext, if_pos hbound]
  congr 1
  unfold SkipList.stage
  congr 1
  funext y l
  rcases lt_trichotomy l p with hl | rfl | hl
  · simp [hl, hl.ne, Nat.lt_succ_of_lt hl]
  · by_cases hy : y = some s.nodes.length
    · simp [hy, hne.symm]
    · simp [hy]
  · simp [hl.ne', not_lt.mpr hl.le, not_lt.mpr (Nat.succ_le_of_lt hl)]

theorem Wf.prev_getD (key : K) (i : ℕ) :
    ((List.range s.maxHeight).map fun l => (s.front cmp key (ids l)).getLast?).getD i none =
      (s.front cmp key (ids i)).getLast? := by
  by_cases hi : i < s.maxHeight
  · simp [List.getD_eq_getElem?_getD, hi]
  · simp [List.getD_eq_getElem?_getD, hi, front, h.top i (not_lt.mp hi)]

/-- **The states of the loop over the levels**: each prefix of its stores leads to a stage. -/
theorem Wf.run_linkStores (hheight : height ≤ kMaxHeight)
    (hprev : ∀ i, prev.getD i none = (s.front cmp key (ids i)).getLast?) (n : ℕ) (hn : n ≤ height) :
    Run.runFrom store (SkipList.stage cmp s ids key height 0 0)
        (linkStores s.nodes.length prev n) = some (SkipList.stage cmp s ids key height n n) ∧
      ∀ m, ∃ p q, p ≤ q ∧ q ≤ n ∧ Run.runFrom store (SkipList.stage cmp s ids key height 0 0)
        ((linkStores s.nodes.length prev n).take m) =
          some (SkipList.stage cmp s ids key height p q) := by
  induction n with
  | zero => exact ⟨rfl, fun m => ⟨0, 0, le_rfl, le_rfl, by simp [linkStores]⟩⟩
  | succ n ih =>
    obtain ⟨hall, hprefix⟩ := ih (by omega)
    have hinit := h.store_initLink key (show n < height by omega) hheight
    have hpublish := h.store_publish key (show n < height by omega) hheight
    have hsplit : linkStores (K := K) s.nodes.length prev (n + 1) =
        linkStores s.nodes.length prev n ++
          [.initLink s.nodes.length n (s.front cmp key (ids n)).getLast?,
            .publish (s.front cmp key (ids n)).getLast? n s.nodes.length] := by
      rw [linkStores, List.range_succ, List.flatMap_append, List.flatMap_singleton, hprev]
      rfl
    have hrun : Run.runFrom store (SkipList.stage cmp s ids key height 0 0)
        (linkStores s.nodes.length prev (n + 1)) =
          some (SkipList.stage cmp s ids key height (n + 1) (n + 1)) := by
      rw [hsplit, Run.runFrom_append, hall]
      simp [hinit, hpublish]
    refine ⟨hrun, fun m => ?_⟩
    have hlen : (linkStores (K := K) s.nodes.length prev n).length = 2 * n := by
      simp [linkStores, Nat.mul_comm]
    rcases lt_trichotomy m (2 * n + 1) with hm | rfl | hm
    · obtain ⟨p, q, hpq, hq, hstate⟩ := hprefix m
      refine ⟨p, q, hpq, by omega, ?_⟩
      rw [hsplit, List.take_append_of_le_length (by omega)]
      exact hstate
    · refine ⟨n, n + 1, by omega, le_rfl, ?_⟩
      rw [hsplit, ← hlen, List.take_length_add_append, Run.runFrom_append, hall]
      simp [hinit]
    · refine ⟨n + 1, n + 1, le_rfl, le_rfl, ?_⟩
      rw [List.take_of_length_le (by rw [hsplit, List.length_append, hlen]; simp; omega), hrun]

theorem Wf.raise {height : ℕ} (hle : s.maxHeight ≤ height) (hheight : height ≤ kMaxHeight) :
    Wf cmp { s with maxHeight := height } ids where
  chain := h.chain
  nested := h.nested
  ascending := h.ascending
  allocated := h.allocated
  tall := h.tall
  top l hl := h.top l (hle.trans hl)
  maxHeight_pos := lt_of_lt_of_le h.maxHeight_pos hle
  maxHeight_le := hheight

end

/-- A state that readers may find during the insertion of a key. -/
def Readable (cmp : K → K → Ordering) (L : List K) (key : K) (s : SkipList K) : Prop :=
  ∃ ids, s.Wf cmp ids ∧ (s.keysOf (ids 0) = L ∨ (s.keysOf (ids 0)).Perm (key :: L))

theorem Wf.readable_stage [Std.TransCmp cmp] (h : s.Wf cmp ids)
    (hnew : ∀ k ∈ s.keysOf (ids 0), cmp key k ≠ .eq) (hpq : p ≤ q) (hp : p ≤ height)
    (hheight : height ≤ kMaxHeight) :
    Readable cmp (s.keysOf (ids 0)) key (SkipList.stage cmp s ids key height p q) := by
  refine ⟨_, h.stage hnew hpq hp hheight, ?_⟩
  rcases Nat.eq_zero_or_pos p with rfl | hpos
  · exact .inl h.keysOf_stage_zero
  · exact .inr (h.keysOf_stage_pos hpos)

theorem Wf.readable (h : s.Wf cmp ids) (key : K) : Readable cmp (s.keysOf (ids 0)) key s :=
  ⟨ids, h, .inl rfl⟩

theorem store_newNode (hheight : height ≤ s.maxHeight) :
    s.store (.newNode key height) = some (SkipList.stage cmp s ids key height 0 0) := by
  have hnext : (SkipList.stage cmp s ids key height 0 0).next = s.next := by
    funext y l
    simp [SkipList.stage]
  have hmax : (SkipList.stage cmp s ids key height 0 0).maxHeight = s.maxHeight :=
    max_eq_left hheight
  rw [store, ← hnext, ← hmax]
  rfl

/-- **The stores of an insertion**: each prefix of them leads to a state that readers may find, and
all of them lead to a list with the key. -/
structure Inserts (cmp : K → K → Ordering) (s : SkipList K) (L : List K) (key : K)
    (stores : List (Store K)) : Prop where
  readable : ∀ m, ∃ s', Run.runFrom store s (stores.take m) = some s' ∧ Readable cmp L key s'
  inserted : ∃ s' ids', Run.runFrom store s stores = some s' ∧ s'.Wf cmp ids' ∧
    (s'.keysOf (ids' 0)).Perm (key :: L)

theorem Inserts.cons {s' : SkipList K} {L : List K} {a : Store K} {stores : List (Store K)}
    (hs : Readable cmp L key s) (hstore : s.store a = some s') (h : Inserts cmp s' L key stores) :
    Inserts cmp s L key (a :: stores) := by
  refine ⟨fun m => ?_, ?_⟩
  · cases m with
    | zero => exact ⟨s, rfl, hs⟩
    | succ m =>
      rw [List.take_succ_cons, Run.runFrom_cons, hstore]
      exact h.readable m
  · rw [Run.runFrom_cons, hstore]
    exact h.inserted

section

variable (h : s.Wf cmp ids) (hnew : ∀ k ∈ s.keysOf (ids 0), cmp key k ≠ .eq) (hpos : 0 < height)
  (hheight : height ≤ kMaxHeight)
  (hprev : ∀ i, prev.getD i none = (s.front cmp key (ids i)).getLast?)

include h hnew hpos hheight hprev

theorem Wf.inserts_linkStores [Std.TransCmp cmp] :
    Inserts cmp (SkipList.stage cmp s ids key height 0 0) (s.keysOf (ids 0)) key
      (linkStores s.nodes.length prev height) := by
  obtain ⟨hrun, hprefix⟩ := h.run_linkStores hheight hprev height le_rfl
  refine ⟨fun m => ?_, _, _, hrun, h.stage hnew le_rfl le_rfl hheight, h.keysOf_stage_pos hpos⟩
  obtain ⟨p, q, hpq, hq, hstate⟩ := hprefix m
  exact ⟨_, hstate, h.readable_stage hnew hpq (by omega) hheight⟩

/-- **What `Insert` does after its search.** -/
theorem Wf.inserts_storesAfter [Std.TransCmp cmp] :
    Inserts cmp s (s.keysOf (ids 0)) key (s.storesAfter key height prev) := by
  unfold storesAfter
  by_cases hraise : s.maxHeight < height
  · -- the raised list has the same nodes and links
    have h' := h.raise hraise.le hheight
    rw [if_pos hraise]
    exact (((h'.inserts_linkStores hnew hpos hheight hprev).cons (h'.readable key)
      (store_newNode le_rfl))).cons (h.readable key) rfl
  · rw [if_neg hraise]
    exact (h.inserts_linkStores hnew hpos hheight hprev).cons (h.readable key)
      (store_newNode (not_lt.mp hraise))

end

end Stage

/-- **`Insert` of a new key**: its assertion holds, and readers may find its states. -/
theorem Wf.insertStores_eq (h : s.Wf cmp ids) (key : K)
    (hnew : ∀ k ∈ s.keysOf (ids 0), cmp key k ≠ .eq) {height : ℕ} (hpos : 0 < height)
    (hheight : height ≤ kMaxHeight) : ∃ stores, s.insertStores cmp key height = some stores ∧
      Inserts cmp s (s.keysOf (ids 0)) key stores := by
  have hread := h.answers.findGreaterOrEqual key
  refine ⟨_, ?_, h.inserts_storesAfter hnew hpos hheight (h.prev_getD key)⟩
  rw [h.findGreaterOrEqual_eq, Option.bind_some] at hread
  unfold insertStores
  rw [h.findGreaterOrEqual_eq]
  simp only [Option.bind_eq_bind, Option.bind_some, hread]
  have hassert : ((s.keysOf (ids 0)).find? fun k => cmp k key ≠ .lt).all
      (fun k => cmp key k ≠ .eq) = true := by
    cases hfind : (s.keysOf (ids 0)).find? fun k => cmp k key ≠ .lt with
    | none => rfl
    | some k => simpa using hnew k (List.mem_of_find?_eq_some hfind)
  rw [if_pos hassert]
  rfl

/-! ## Runs -/

/-- The list after calls of `Insert`, each with the height that `RandomHeight` gives. -/
def insertAll (cmp : K → K → Ordering) (s : SkipList K) (inserts : List (K × ℕ)) :
    Option (SkipList K) := Run.runFrom (fun s p => s.insert cmp p.1 p.2) s inserts

/-- **Calls of `Insert` with new keys return**, and the list has the keys. -/
theorem Wf.insertAll_wf (inserts : List (K × ℕ)) :
    ∀ {s : SkipList K} {ids : ℕ → List ℕ}, s.Wf cmp ids →
      (∀ p ∈ inserts, 0 < p.2 ∧ p.2 ≤ kMaxHeight) →
      (inserts.Pairwise fun p q => cmp p.1 q.1 ≠ .eq) →
      (∀ p ∈ inserts, ∀ k ∈ s.keysOf (ids 0), cmp p.1 k ≠ .eq) →
      ∃ s' ids', s.insertAll cmp inserts = some s' ∧ s'.Wf cmp ids' ∧
        (s'.keysOf (ids' 0)).Perm (inserts.map Prod.fst ++ s.keysOf (ids 0)) := by
  induction inserts with
  | nil => exact fun {s ids} h _ _ _ => ⟨s, ids, rfl, h, List.Perm.refl _⟩
  | cons p inserts ih =>
    intro s ids h hheights hdistinct hnew
    obtain ⟨hpos, hle⟩ := hheights p List.mem_cons_self
    obtain ⟨hfirst, hdistinct⟩ := List.pairwise_cons.mp hdistinct
    obtain ⟨stores, hstores, hinserts⟩ :=
      h.insertStores_eq p.1 (hnew p List.mem_cons_self) hpos hle
    obtain ⟨s₁, ids₁, hrun, h₁, hperm₁⟩ := hinserts.inserted
    have hinsert : s.insert cmp p.1 p.2 = some s₁ := by
      rw [insert, hstores, Option.bind_some, hrun]
    obtain ⟨s', ids', hall, h', hperm⟩ := ih h₁
      (fun q hq => hheights q (List.mem_cons_of_mem _ hq)) hdistinct fun q hq k hk => by
        rcases List.mem_cons.mp (hperm₁.mem_iff.mp hk) with rfl | hk
        · exact fun heq => hfirst q hq (Std.OrientedCmp.eq_symm heq)
        · exact hnew q (List.mem_cons_of_mem _ hq) k hk
    refine ⟨s', ids', ?_, h', ?_⟩
    · rw [insertAll, Run.runFrom_cons, hinsert]
      exact hall
    · refine (hperm.trans (hperm₁.append_left _)).trans ?_
      exact List.perm_middle

/-- **Readers see a consistent list during an insertion.** In a list built by calls of `Insert`, in
every state between two stores of another one, the three searches end and return the right nodes for
the old keys, or for the old keys and the new one. -/
theorem frozen_reads (inserts : List (K × ℕ))
    (hheights : ∀ p ∈ inserts, 0 < p.2 ∧ p.2 ≤ kMaxHeight)
    (hdistinct : inserts.Pairwise fun p q => cmp p.1 q.1 ≠ .eq) (key : K) (height : ℕ)
    (hpos : 0 < height) (hheight : height ≤ kMaxHeight)
    (hnew : ∀ p ∈ inserts, cmp key p.1 ≠ .eq) :
    ∃ s stores, new.insertAll cmp inserts = some s ∧ s.insertStores cmp key height = some stores ∧
      ∀ m, ∃ s' L, Run.runFrom store s (stores.take m) = some s' ∧ Sorted cmp L ∧
        (L.Perm (inserts.map Prod.fst) ∨ L.Perm (key :: inserts.map Prod.fst)) ∧
        Answers cmp s' L := by
  obtain ⟨s, ids, hall, h, hperm⟩ := (new_wf cmp).insertAll_wf inserts hheights hdistinct
    fun _ _ k hk => by simp [keysOf] at hk
  have hkeys : (s.keysOf (ids 0)).Perm (inserts.map Prod.fst) := by simpa [keysOf] using hperm
  obtain ⟨stores, hstores, hinserts⟩ := h.insertStores_eq key (fun k hk => by
    obtain ⟨p, hp, rfl⟩ := List.mem_map.mp (hkeys.mem_iff.mp hk)
    exact hnew p hp) hpos hheight
  refine ⟨s, stores, hall, hstores, fun m => ?_⟩
  obtain ⟨s', hrun, ids', h', hL⟩ := hinserts.readable m
  refine ⟨s', _, hrun, h'.sorted, ?_, h'.answers⟩
  rcases hL with hL | hL
  · exact .inl (hL ▸ hkeys)
  · exact .inr (hL.trans (hkeys.cons key))

/-- A list of two keys gets the key 2 at a new height. -/
theorem frozen_reads_raised :
    ∃ (s : SkipList ℕ) (stores : List (Store ℕ)),
      new.insertAll compare [(1, 1), (3, 2)] = some s ∧
      s.insertStores compare 2 3 = some stores ∧
      ∀ m, ∃ s' L, Run.runFrom store s (stores.take m) = some s' ∧ Sorted compare L ∧
        (L.Perm [1, 3] ∨ L.Perm [2, 1, 3]) ∧ Answers compare s' L :=
  frozen_reads [(1, 1), (3, 2)] (by decide) (by decide) 2 3 (by decide) (by decide) (by decide)

end SkipList

end McfKv
