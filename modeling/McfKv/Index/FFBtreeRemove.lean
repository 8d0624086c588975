import McfKv.Index.PageRemove
import McfKv.Index.FFBtreeInsert

/-!
# Removal from the FAST and FAIR tree (`multi-cuckoo-index/ff_btreee.h`, `ff_btreee.cc`)

`Remove` walks down to a leaf and calls `Page::remove`, which takes the key out of the page.
A page other than the root that has too few entries left is rebalanced. `RemoveInternal`
takes the page out of its parent first, which may rebalance the parent in turn, and reports
the key that was deleted there and the left sibling. Then the two siblings are merged into
the left one, or their entries are divided anew and the new key between them is inserted
into the level above. The leftmost child of a page has no left sibling under the same
parent; there the right sibling is rebalanced in its place.

As before, `none` stands for a read through a null or dangling pointer, for a read outside of
the array of records, for the use of an out-parameter that was not set, and for running out
of fuel. A call of `Remove` that calls itself again takes one more of the `rounds`.

The second half of the module is about the pages alone. `Joint` are the entries of two
siblings together. `merged_spec` puts them into one page, and `fromLeft_spec` and
`toLeft_spec` divide them at a new key.
-/

namespace McfKv.Btree

/-! ## The functions -/

namespace Page

/-- The loop of `RemoveInternal`: the first record that points to a page and repeats no pointer
on its left. The inner `none` says that there is no such record. -/
def findChild (p : Page) (a : Addr) : ℕ → ℕ → Option (Option ℕ)
  | 0, _ => none
  | fuel + 1, i =>
    if p.ptr i = 0 then some none
    else if p.ptr i = a ∧ p.prevPtr i ≠ p.ptr i then some (some i)
    else findChild p a fuel (i + 1)

/-- The first entry that the left sibling of an internal page gets: the leftmost child, under
the key that was deleted from the parent. -/
def separator (p : Page) (deleted : ℕ) : List (ℕ × Addr) :=
  if p.leftmostPtr = 0 then [] else [(deleted, p.leftmostPtr)]

end Page

/-- The tree after `RemoveInternal`, and its out-parameters. -/
structure Detached where
  tree : Tree
  deletedKey : ℕ
  isLeftmost : Bool
  leftSibling : Option Addr

/-- `FFBtree::RemoveInternal`; `remove` is `Page::remove`. -/
def removeInternal (remove : Tree → Addr → ℕ → Option (Tree × Bool)) (t : Tree) (k : ℕ)
    (a : Addr) (level : ℕ) : Option Detached :=
  (t.heap t.root).bind fun r =>
    if r.level < level then some ⟨t, 0, false, none⟩
    else
      (t.descend k (fun p => p.level ≤ level) t.height t.root).bind fun b =>
        (t.heap b).bind fun p =>
          if p.leftmostPtr = a then some ⟨t, 0, true, none⟩
          else
            (p.findChild a cardinality 0).bind fun found =>
              match found with
              | none => some ⟨t, 0, false, none⟩
              | some i =>
                (remove t b (p.key i)).map fun res => ⟨res.1, p.key i, false, some (p.prevPtr i)⟩

/-- Two siblings after a redistribution, and the key between them. -/
structure Redistributed where
  left : Page
  right : Page
  parentKey : ℕ

/-- The redistribution from left to right: `p` is the page, `q` its left sibling, and `m` the
number of entries that the left sibling keeps. -/
def fromLeft (q p : Page) (nl n m deleted : ℕ) : Redistributed :=
  if p.leftmostPtr = 0 then
    let moved := insertMany ⟨p, 0, n⟩ (q.records (List.range' m (nl - m)).reverse)
    ⟨q.truncated m, moved.page, moved.page.key 0⟩
  else
    let moved := insertMany ⟨p, 0, n⟩
      (p.separator deleted ++ q.records (List.range' (m + 1) (nl - (m + 1))).reverse)
    ⟨q.truncated m, { moved.page with leftmostPtr := q.ptr m }, q.key m⟩

/-- The redistribution from right to left ("from leftmost case"): the first `dist` entries go
to the left sibling, and the others to a new page at address `b`. -/
def toLeft (q p : Page) (nl dist deleted : ℕ) (b : Addr) : Option Redistributed :=
  let sibling := { Page.new p.level with siblingPtr := p.siblingPtr }
  (p.countUp (cardinality - dist) dist).bind fun stop =>
    let rest := p.records (List.range' dist (stop - dist))
    if p.leftmostPtr = 0 then
      let left := insertMany ⟨q, 0, nl⟩ (p.records (List.range dist))
      let right := insertMany ⟨sibling, 0, 0⟩ rest
      some ⟨{ left.page with siblingPtr := b }, right.page, right.page.key 0⟩
    else if dist = 0 then none
    else
      let left := insertMany ⟨q, 0, nl⟩ (p.separator deleted ++ p.records (List.range (dist - 1)))
      let right := insertMany ⟨{ sibling with leftmostPtr := p.ptr (dist - 1) }, 0, 0⟩ rest
      some ⟨{ left.page with siblingPtr := b }, right.page, p.key (dist - 1)⟩

/-- The left sibling after a merge; `stop` is the number of records of the page. -/
def merged (q p : Page) (nl stop deleted : ℕ) : Page :=
  { (insertMany ⟨q, 0, nl⟩ (p.separator deleted ++ p.records (List.range stop))).page with
    siblingPtr := p.siblingPtr }

section Alloc

variable (alloc : ℕ → Addr)

/-- The end of a redistribution: a new root, or the insertion of the new key into the level
above. -/
def linkSiblings (t : Tree) (left : Addr) (k : ℕ) (right : Addr) (level : ℕ) : Option Tree :=
  if left = t.root then
    some { t.put (alloc t.next) (Page.newRoot left k right level) with
      root := alloc t.next
      height := t.height + 1
      next := t.next + 1 }
  else insertInternal alloc t.height t k right level

/-- The merge or redistribution of the page at `a` and its left sibling. -/
def balance (t : Tree) (a left : Addr) (deleted : ℕ) : Option Tree :=
  (t.heap a).bind fun p => p.count.bind fun n =>
    (t.heap left).bind fun q => q.count.bind fun nl =>
      let total := n + nl + if p.leftmostPtr = 0 then 0 else 1
      if cardinality - 1 < total then
        if n < nl then
          let r := fromLeft q p nl n (total / 2) deleted
          linkSiblings alloc ((t.put a r.right).put left r.left) left r.parentKey a (p.level + 1)
        else
          (toLeft q p nl (n - total / 2) deleted (alloc t.next)).bind fun r =>
            linkSiblings alloc
              { (t.put (alloc t.next) r.right).put left r.left with next := t.next + 1 }
              left r.parentKey (alloc t.next) (p.level + 1)
      else (p.countUp cardinality 0).map fun stop => t.put left (merged q p nl stop deleted)

/-- The part of `Page::remove` from the call of `RemoveInternal` on. -/
def rebalance (remove : Tree → Addr → ℕ → Bool → Option (Tree × Bool)) (t : Tree) (a : Addr)
    (k : ℕ) : Option Tree :=
  (t.heap a).bind fun p =>
    (removeInternal (fun t b x => remove t b x false) t k a (p.level + 1)).bind fun d =>
      if d.isLeftmost then
        (d.tree.heap a).bind fun p => (d.tree.firstKey p.siblingPtr).bind fun first =>
          (remove d.tree p.siblingPtr first true).map Prod.fst
      else d.leftSibling.bind fun left => balance alloc d.tree a left d.deletedKey

/-- `Page::remove` on the page at `a`. -/
def removePage : ℕ → Tree → Addr → ℕ → Bool → Option (Tree × Bool)
  | 0, _, _, _, _ => none
  | fuel + 1, t, a, k, onlyRebalance =>
    if onlyRebalance then (rebalance alloc (removePage fuel) t a k).map fun t => (t, true)
    else
      (t.heap a).bind fun p => p.count.bind fun n => (p.removeKey k).bind fun res =>
        let t' := t.put a res.1
        if t.root = a then
          if 0 < p.level ∧ n = 1 ∧ p.siblingPtr = 0 then
            some ({ t' with root := p.leftmostPtr }, true)
          else some (t', true)
        else if minEntries ≤ n - 1 then some (t', if p.leftmostPtr = 0 then res.2 else true)
        else (rebalance alloc (removePage fuel) t' a k).map fun t => (t, true)

end Alloc

namespace Tree

/-- The second loop of `FFBtree::Remove`: the page that it stops at, or null. -/
def leafFor (t : Tree) (k : ℕ) : ℕ → Addr → Option Addr
  | 0, _ => none
  | fuel + 1, a =>
    (t.heap a).bind fun p =>
      (p.linearSearch t.firstKey k).bind fun r =>
        if r = p.siblingPtr then if r = 0 then some 0 else leafFor t k fuel r
        else some a

/-- One call of `FFBtree::Remove` up to its recursive call, which it makes when the result is
`false`. -/
def removeRound (alloc : ℕ → Addr) (t : Tree) (k : ℕ) : Option (Tree × Bool) :=
  (t.descend k (fun p => p.leftmostPtr = 0) t.height t.root).bind fun leaf =>
    (t.leafFor k t.next leaf).bind fun a =>
      if a = 0 then some (t, true) else removePage alloc (2 * t.height) t a k false

/-- `FFBtree::Remove`. -/
def remove (alloc : ℕ → Addr) : ℕ → Tree → ℕ → Option Tree
  | 0, _, _ => none
  | rounds + 1, t, k =>
    (t.removeRound alloc k).bind fun res =>
      if res.2 then some res.1 else remove alloc rounds res.1 k

end Tree

/-! ## Two siblings -/

namespace Page

/-- The entries of two siblings. Above the leaves this includes the leftmost child of the
right one, under the key `x` between them. -/
def Joint (q p : Page) (nl n x : ℕ) (z : ℕ) (y : Addr) : Prop :=
  q.Has nl z y ∨ p.Has n z y ∨ (p.leftmostPtr ≠ 0 ∧ z = x ∧ y = p.leftmostPtr)

/-- Two pages in order, of one kind, with the key `x` between them. -/
structure Siblings (q p : Page) (nl n x : ℕ) : Prop where
  left : q.Sound nl
  right : p.Sound n
  leaf : q.leftmostPtr = 0 ↔ p.leftmostPtr = 0
  level : q.level = p.level
  below : ∀ i < nl, q.key i < x
  above : ∀ i < n, x ≤ p.key i
  inner : p.leftmostPtr ≠ 0 → ∀ i < n, x < p.key i

theorem length_separator (p : Page) (x : ℕ) :
    (p.separator x).length = if p.leftmostPtr = 0 then 0 else 1 := by
  unfold separator
  split_ifs <;> rfl

theorem mem_separator {p : Page} {x z : ℕ} {y : Addr} :
    (z, y) ∈ p.separator x ↔ p.leftmostPtr ≠ 0 ∧ z = x ∧ y = p.leftmostPtr := by
  unfold separator
  split_ifs with h
  · simp [h]
  · simp [h]

section Siblings

variable {q p : Page} {nl n x : ℕ}

/-- The pages `s` and `t` have no key in common, and neither has the key `x` of the leftmost child
of `p`. -/
structure Apart (p s t : Page) (c d x : ℕ) : Prop where
  keys : ∀ i < c, ∀ j < d, s.key i ≠ t.key j
  left : p.leftmostPtr ≠ 0 → ∀ i < c, s.key i ≠ x
  right : p.leftmostPtr ≠ 0 → ∀ j < d, t.key j ≠ x

theorem Siblings.apart (h : Siblings q p nl n x) : Apart p q p nl n x where
  keys i hi j hj := ((h.below i hi).trans_le (h.above j hj)).ne
  left _ i hi := (h.below i hi).ne
  right hne j hj := (h.inner hne j hj).ne'

theorem Apart.symm {s t : Page} {c d : ℕ} (h : Apart p s t c d x) : Apart p t s d c x :=
  ⟨fun j hj i hi => (h.keys i hi j hj).symm, h.right, h.left⟩

/-- **Records of a page can be added to another**, with or without the leftmost child of `p` under
the key `x`. -/
theorem insertMany_separator {s t : Page} {c d : ℕ} (hs : s.Sound c) (ht : t.Sound d)
    (hapart : Apart p s t c d x) (is : List ℕ) (his : is.Nodup) (hlt : ∀ j ∈ is, j < d)
    (hlen : c + ((p.separator x).length + is.length) ≤ cardinality - 1) :
    ∃ r : Inserted, insertMany ⟨s, 0, c⟩ (p.separator x ++ t.records is) = r ∧
      r.page.Sound (c + ((p.separator x).length + is.length)) ∧ s.SameHeader r.page ∧
      ∀ z y, r.page.Has (c + ((p.separator x).length + is.length)) z y ↔
        s.Has c z y ∨ (∃ j ∈ is, t.key j = z ∧ t.ptr j = y) ∨
          (p.leftmostPtr ≠ 0 ∧ z = x ∧ y = p.leftmostPtr) := by
  have hlength : (p.separator x ++ t.records is).length = (p.separator x).length + is.length := by
    rw [List.length_append, length_records]
  have hmem : ∀ e ∈ p.separator x ++ t.records is, e.2 ≠ 0 ∧ ∀ i < c, s.key i ≠ e.1 := by
    rintro ⟨z, y⟩ he
    rcases List.mem_append.mp he with he | he
    · obtain ⟨hne, rfl, rfl⟩ := mem_separator.mp he
      exact ⟨hne, hapart.left hne⟩
    · obtain ⟨j, hj, rfl, rfl⟩ := mem_records.mp he
      exact ⟨ht.ptr_ne j (hlt j hj), fun i hi => hapart.keys i hi j (hlt j hj)⟩
  have hnodup : ((p.separator x ++ t.records is).map Prod.fst).Nodup := by
    rw [List.map_append, List.nodup_append]
    refine ⟨?_, ht.records_nodup his hlt, ?_⟩
    · unfold separator
      split_ifs <;> simp
    · rintro z hz z' hz' rfl
      obtain ⟨⟨_, y⟩, hy, rfl⟩ := List.mem_map.mp hz
      obtain ⟨⟨_, y'⟩, hy', heq⟩ := List.mem_map.mp hz'
      obtain ⟨hne, rfl, -⟩ := mem_separator.mp hy
      obtain ⟨j, hj, hkey, -⟩ := mem_records.mp hy'
      exact hapart.right hne j (hlt j hj) (hkey.trans heq)
  obtain ⟨r, old, heq, -, hsound, -, hheader, hhas⟩ :=
    insertMany_spec (p.separator x ++ t.records is) 0 hs (by rwa [hlength])
      (fun e he => (hmem e he).1) (fun e he => (hmem e he).2) hnodup
  rw [hlength] at heq hsound hhas
  refine ⟨_, heq, hsound, hheader, fun z y => ?_⟩
  rw [hhas, List.mem_append, mem_separator, mem_records, or_comm, or_comm (a := _ ∧ _)]

end Siblings

end Page

/-- **The merge of two siblings** holds their entries. -/
theorem merged_spec {q p : Page} {nl n x : ℕ} (h : q.Siblings p nl n x)
    (hlen : nl + ((p.separator x).length + n) ≤ cardinality - 1) :
    (merged q p nl n x).Sound (nl + ((p.separator x).length + n)) ∧
      (merged q p nl n x).leftmostPtr = q.leftmostPtr ∧
      (merged q p nl n x).siblingPtr = p.siblingPtr ∧ (merged q p nl n x).level = q.level ∧
      ∀ z y, (merged q p nl n x).Has (nl + ((p.separator x).length + n)) z y ↔
        q.Joint p nl n x z y := by
  obtain ⟨r, heq, hsound, hheader, hhas⟩ :=
    Page.insertMany_separator h.left h.right h.apart (List.range n) List.nodup_range
      (fun i hi => List.mem_range.mp hi)
      (by rwa [List.length_range])
  rw [List.length_range] at hsound hhas
  unfold merged
  rw [heq]
  refine ⟨hsound.setHeader _ _, hheader.1, rfl, hheader.2.2, fun z y => (hhas z y).trans ?_⟩
  simp only [List.mem_range]
  rfl

/-- **The entries of two siblings, divided at a new key.** `b` is the address of the right
page. -/
structure IsDivided (q p : Page) (nl n x : ℕ) (b : Addr) (nl' nr' : ℕ) (r : Redistributed) :
    Prop where
  left_full : minEntries ≤ nl'
  left_sound : r.left.Sound nl'
  left_level : r.left.level = p.level
  left_leftmost : r.left.leftmostPtr = q.leftmostPtr
  left_sibling : r.left.siblingPtr = b
  left_has : ∀ z y, r.left.Has nl' z y ↔ q.Joint p nl n x z y ∧ z < r.parentKey
  right_full : minEntries ≤ nr'
  right_sound : r.right.Sound nr'
  right_level : r.right.level = p.level
  right_leaf : p.leftmostPtr = 0 → r.right.leftmostPtr = 0
  right_inner : p.leftmostPtr ≠ 0 → q.Joint p nl n x r.parentKey r.right.leftmostPtr
  right_sibling : r.right.siblingPtr = p.siblingPtr
  right_has : ∀ z y, r.right.Has nr' z y ↔
    q.Joint p nl n x z y ∧ r.parentKey ≤ z ∧ (p.leftmostPtr ≠ 0 → z ≠ r.parentKey)
  parentKey : ∃ y, q.Joint p nl n x r.parentKey y

section Divided

variable {q p : Page} {nl n x m : ℕ} {b : Addr}

theorem first_key_eq {r : Page} {c s : ℕ} (h : r.Sound c) {y : Addr} (hs : r.Has c s y)
    (hle : ∀ z y, r.Has c z y → s ≤ z) : r.key 0 = s := by
  obtain ⟨i, hi, rfl, -⟩ := hs
  exact le_antisymm (h.key_zero_le hi) (hle _ _ ⟨0, by omega, rfl, rfl⟩)

section

variable (h : q.Siblings p nl n x)

include h

theorem Page.Siblings.joint_lt (hm : m < nl) (z : ℕ) (y : Addr) :
    q.Joint p nl n x z y ∧ z < q.key m ↔ q.Has nl z y ∧ z < q.key m := by
  refine and_congr_left fun hz => ⟨?_, Or.inl⟩
  have hx := h.below m hm
  rintro (hq | ⟨i, hi, rfl, -⟩ | ⟨-, rfl, -⟩)
  · exact hq
  · have := h.above i hi
    omega
  · omega

theorem Page.Siblings.joint_behind {B : ℕ → Prop} (hB : ∀ z, x ≤ z → B z) (z : ℕ) (y : Addr) :
    p.Has n z y ∨ (q.Has nl z y ∧ B z) ∨ (p.leftmostPtr ≠ 0 ∧ z = x ∧ y = p.leftmostPtr) ↔
      q.Joint p nl n x z y ∧ B z := by
  constructor
  · rintro (hp | ⟨hq, hz⟩ | ⟨hne, rfl, rfl⟩)
    · refine ⟨Or.inr (Or.inl hp), ?_⟩
      obtain ⟨i, hi, rfl, -⟩ := hp
      exact hB _ (h.above i hi)
    · exact ⟨Or.inl hq, hz⟩
    · exact ⟨Or.inr (Or.inr ⟨hne, rfl, rfl⟩), hB _ le_rfl⟩
  · rintro ⟨hq | hp | hsep, hz⟩
    · exact Or.inr (Or.inl ⟨hq, hz⟩)
    · exact Or.inl hp
    · exact Or.inr (Or.inr hsep)

section

variable (hm : m < nl) (hsib : q.siblingPtr = b) (hleft : minEntries ≤ m)
  (hright : minEntries ≤ n + (nl - m)) (hfit : n + (nl - m) ≤ cardinality - 1)

include hm hsib hleft hright hfit

theorem fromLeft_leaf (hleaf : p.leftmostPtr = 0) :
    IsDivided q p nl n x b m (n + (nl - m)) (fromLeft q p nl n m x) := by
  have hsep : p.separator x = [] := if_pos hleaf
  have hend : m + (nl - m) = nl := by omega
  obtain ⟨r, heq, hsound, hheader, hhas⟩ :=
    Page.insertMany_separator h.right h.left h.apart.symm (List.range' m (nl - m)).reverse
      (List.nodup_reverse.mpr List.nodup_range')
      (fun i hi => by
        rw [List.mem_reverse, List.mem_range'_1] at hi
        omega)
      (by simpa [hsep] using hfit)
  rw [hsep, List.nil_append] at heq
  simp only [hsep, List.length_nil, List.length_reverse, List.length_range', Nat.zero_add,
    List.mem_reverse, List.mem_range'_1, and_assoc, hend] at hsound hhas
  have hhas' : ∀ z y, r.page.Has (n + (nl - m)) z y ↔
      q.Joint p nl n x z y ∧ q.key m ≤ z := fun z y => by
    rw [hhas, has_from h.left hm]
    exact h.joint_behind (fun z hz => (h.below m hm).le.trans hz) z y
  have hmid : q.Joint p nl n x (q.key m) (q.ptr m) := Or.inl ⟨m, hm, rfl, rfl⟩
  have hfirst : r.page.key 0 = q.key m :=
    first_key_eq hsound ((hhas' _ _).mpr ⟨hmid, le_rfl⟩) fun z y hz => ((hhas' z y).mp hz).2
  have hdef : fromLeft q p nl n m x = ⟨q.truncated m, r.page, q.key m⟩ := by
    rw [fromLeft, if_pos hleaf, heq, ← hfirst]
  rw [hdef]
  refine ⟨hleft, truncated_sound h.left hm.le, h.level, rfl, hsib, fun z y => ?_, hright, hsound,
    hheader.2.2, fun _ => hheader.1.trans hleaf, absurd hleaf, hheader.2.1, fun z y => ?_,
    ⟨_, hmid⟩⟩
  · rw [h.joint_lt hm]
    exact truncated_has h.left hm z y
  · rw [hhas', ← and_assoc, and_iff_left (absurd hleaf)]

theorem fromLeft_inner (hne : p.leftmostPtr ≠ 0) :
    IsDivided q p nl n x b m (n + (nl - m)) (fromLeft q p nl n m x) := by
  have hsep : (p.separator x).length = 1 := by rw [Page.length_separator, if_neg hne]
  have hlen : n + (1 + (nl - (m + 1))) = n + (nl - m) := by omega
  have hend : m + 1 + (nl - (m + 1)) = nl := by omega
  obtain ⟨r, heq, hsound, hheader, hhas⟩ :=
    Page.insertMany_separator h.right h.left h.apart.symm
      (List.range' (m + 1) (nl - (m + 1))).reverse (List.nodup_reverse.mpr List.nodup_range')
      (fun i hi => by
        rw [List.mem_reverse, List.mem_range'_1] at hi
        omega)
      (by rw [hsep, List.length_reverse, List.length_range', hlen]; exact hfit)
  simp only [hsep, List.length_reverse, List.length_range', hlen, List.mem_reverse,
    List.mem_range'_1, and_assoc, hend] at hsound hhas
  have hmid : q.Joint p nl n x (q.key m) (q.ptr m) := Or.inl ⟨m, hm, rfl, rfl⟩
  have hdef : fromLeft q p nl n m x =
      ⟨q.truncated m, { r.page with leftmostPtr := q.ptr m }, q.key m⟩ := by
    rw [fromLeft, if_neg hne, heq]
  rw [hdef]
  refine ⟨hleft, truncated_sound h.left hm.le, h.level, rfl, hsib, fun z y => ?_, hright,
    hsound.setHeader _ _, hheader.2.2, fun h0 => absurd h0 hne, fun _ => hmid, hheader.2.1,
    fun z y => (hhas z y).trans ?_, ⟨_, hmid⟩⟩
  · rw [h.joint_lt hm]
    exact truncated_has h.left hm z y
  · have hlt : (q.key m ≤ z ∧ (p.leftmostPtr ≠ 0 → z ≠ q.key m)) ↔ q.key m < z :=
      ⟨fun hz => lt_of_le_of_ne hz.1 (hz.2 hne).symm, fun hz => ⟨hz.le, fun _ => hz.ne'⟩⟩
    rw [hlt, has_behind h.left hm]
    exact h.joint_behind (fun z hz => (h.below m hm).trans_le hz) z y

/-- **The redistribution from left to right.** -/
theorem fromLeft_spec : IsDivided q p nl n x b m (n + (nl - m)) (fromLeft q p nl n m x) := by
  by_cases hleaf : p.leftmostPtr = 0
  · exact fromLeft_leaf h hm hsib hleft hright hfit hleaf
  · exact fromLeft_inner h hm hsib hleft hright hfit hleaf

end

/-- The entries below a key of the right sibling: those of the left one, the leftmost child,
and the records in front. -/
theorem Page.Siblings.joint_front (hm : m < n) (hx : p.leftmostPtr ≠ 0 → x < p.key m) (z : ℕ)
    (y : Addr) : (q.Has nl z y ∨ p.Has m z y ∨ (p.leftmostPtr ≠ 0 ∧ z = x ∧ y = p.leftmostPtr)) ↔
      q.Joint p nl n x z y ∧ z < p.key m := by
  have hfront := has_front h.right hm z y
  constructor
  · rintro (hq | hp | ⟨hne, rfl, rfl⟩)
    · refine ⟨Or.inl hq, ?_⟩
      obtain ⟨i, hi, rfl, -⟩ := hq
      exact (h.below i hi).trans_le (h.above m hm)
    · exact ⟨Or.inr (Or.inl (hfront.mp hp).1), (hfront.mp hp).2⟩
    · exact ⟨Or.inr (Or.inr ⟨hne, rfl, rfl⟩), hx hne⟩
  · rintro ⟨hq | hp | hsep, hz⟩
    · exact Or.inl hq
    · exact Or.inr (Or.inl (hfront.mpr ⟨hp, hz⟩))
    · exact Or.inr (Or.inr hsep)

theorem Page.Siblings.joint_of_ge (hm : m < n) {z : ℕ} {y : Addr} (hz : p.key m ≤ z)
    (hne : p.leftmostPtr ≠ 0 → z ≠ p.key m) : q.Joint p nl n x z y ↔ p.Has n z y := by
  refine ⟨?_, fun hp => Or.inr (Or.inl hp)⟩
  have hx := h.above m hm
  rintro (⟨i, hi, rfl, -⟩ | hp | ⟨h0, rfl, -⟩)
  · have := h.below i hi
    omega
  · exact hp
  · have := hne h0
    omega

section

variable {dist : ℕ} (hdist : dist < n) (hleft : minEntries ≤ nl + dist)
  (hright : minEntries ≤ n - dist) (hfit : nl + dist ≤ cardinality - 1) (b : Addr)

include hdist hleft hright hfit

theorem toLeft_leaf (hleaf : p.leftmostPtr = 0) :
    ∃ r, toLeft q p nl dist x b = some r ∧ IsDivided q p nl n x b (nl + dist) (n - dist) r := by
  have hsep : p.separator x = [] := if_pos hleaf
  have hstop : p.countUp (cardinality - dist) dist = some n :=
    Page.countUp_sound h.right hdist.le (by have := h.right.le; omega)
  obtain ⟨l, heql, hsoundl, hheaderl, hhasl⟩ :=
    Page.insertMany_separator h.left h.right h.apart (List.range dist) List.nodup_range
      (fun i hi => (List.mem_range.mp hi).trans hdist) (by simpa [hsep] using hfit)
  rw [hsep, List.nil_append] at heql
  simp only [hsep, List.length_nil, List.length_range, Nat.zero_add, List.mem_range]
    at hsoundl hhasl
  obtain ⟨r, heqr, hsoundr, -, hheaderr, hhasr⟩ := insertMany_records h.right
    ((Page.new_live p.level).sound.setHeader 0 p.siblingPtr) dist
  have hhas : ∀ z y, r.Has (n - dist) z y ↔ p.Has n z y ∧ p.key dist ≤ z := fun z y =>
    (hhasr z y).trans (has_from h.right hdist z y)
  have hmid : p.Has n (p.key dist) (p.ptr dist) := ⟨dist, hdist, rfl, rfl⟩
  have hfirst : r.key 0 = p.key dist :=
    first_key_eq hsoundr ((hhas _ _).mpr ⟨hmid, le_rfl⟩) fun z y hz => ((hhas z y).mp hz).2
  refine ⟨⟨{ l.page with siblingPtr := b }, r, p.key dist⟩, ?_, hleft, hsoundl.setHeader _ _,
    hheaderl.2.2.trans h.level, hheaderl.1, rfl, fun z y => (hhasl z y).trans ?_, hright, hsoundr,
    hheaderr.2.2, fun _ => hheaderr.1, absurd hleaf, hheaderr.2.1, fun z y => ?_,
    ⟨_, Or.inr (Or.inl hmid)⟩⟩
  · rw [toLeft, hstop, Option.bind_some, if_pos hleaf, heql]
    rw [← hfirst]
    exact congrArg (fun moved : Page.Inserted =>
      some (⟨{ l.page with siblingPtr := b }, moved.page, moved.page.key 0⟩ : Redistributed)) heqr
  · exact h.joint_front hdist (absurd hleaf) z y
  · rw [hhas]
    constructor
    · rintro ⟨hp, hz⟩
      exact ⟨(h.joint_of_ge hdist hz (absurd hleaf)).mpr hp, hz, absurd hleaf⟩
    · rintro ⟨hjoint, hz, hne⟩
      exact ⟨(h.joint_of_ge hdist hz hne).mp hjoint, hz⟩

theorem toLeft_inner (hne : p.leftmostPtr ≠ 0) (hpos : 0 < dist) :
    ∃ r, toLeft q p nl dist x b = some r ∧ IsDivided q p nl n x b (nl + dist) (n - dist) r := by
  obtain ⟨d, rfl⟩ := Nat.exists_eq_succ_of_ne_zero hpos.ne'
  have hsep : (p.separator x).length = 1 := by rw [Page.length_separator, if_neg hne]
  have hstop : p.countUp (cardinality - (d + 1)) (d + 1) = some n :=
    Page.countUp_sound h.right hdist.le (by have := h.right.le; omega)
  have hlen : nl + (1 + d) = nl + (d + 1) := by omega
  have hd : d < n := by omega
  obtain ⟨l, heql, hsoundl, hheaderl, hhasl⟩ :=
    Page.insertMany_separator h.left h.right h.apart (List.range d) List.nodup_range
      (fun i hi => (List.mem_range.mp hi).trans hd)
      (by rw [hsep, List.length_range, hlen]; exact hfit)
  simp only [hsep, List.length_range, hlen, List.mem_range] at hsoundl hhasl
  obtain ⟨r, heqr, hsoundr, -, hheaderr, hhasr⟩ := insertMany_records h.right
    ((Page.new_live p.level).sound.setHeader (p.ptr d) p.siblingPtr) (d + 1)
  have hhas : ∀ z y, r.Has (n - (d + 1)) z y ↔ p.Has n z y ∧ p.key d < z := fun z y =>
    (hhasr z y).trans (has_behind h.right hd z y)
  have hmid : q.Joint p nl n x (p.key d) (p.ptr d) := Or.inr (Or.inl ⟨d, hd, rfl, rfl⟩)
  refine ⟨⟨{ l.page with siblingPtr := b }, r, p.key d⟩, ?_, hleft, hsoundl.setHeader _ _,
    hheaderl.2.2.trans h.level, hheaderl.1, rfl, fun z y => (hhasl z y).trans ?_, hright, hsoundr,
    hheaderr.2.2, fun h0 => absurd h0 hne, fun _ => ?_, hheaderr.2.1, fun z y => ?_, ⟨_, hmid⟩⟩
  · rw [toLeft, hstop, Option.bind_some, if_neg hne, if_neg (Nat.succ_ne_zero d)]
    rw [← heql]
    exact congrArg (fun moved : Page.Inserted => some (⟨{ (insertMany ⟨q, 0, nl⟩
      (p.separator x ++ p.records (List.range d))).page with siblingPtr := b }, moved.page,
        p.key d⟩ : Redistributed)) heqr
  · exact h.joint_front hd (fun h0 => h.inner h0 d hd) z y
  · rw [show r.leftmostPtr = p.ptr d from hheaderr.1]
    exact hmid
  · rw [hhas]
    constructor
    · rintro ⟨hp, hz⟩
      exact ⟨(h.joint_of_ge hd hz.le fun _ => hz.ne').mpr hp, hz.le, fun _ => hz.ne'⟩
    · rintro ⟨hjoint, hz, hzne⟩
      exact ⟨(h.joint_of_ge hd hz hzne).mp hjoint, lt_of_le_of_ne hz (hzne hne).symm⟩

/-- **The redistribution from right to left.** -/
theorem toLeft_spec (hpos : p.leftmostPtr ≠ 0 → 0 < dist) :
    ∃ r, toLeft q p nl dist x b = some r ∧ IsDivided q p nl n x b (nl + dist) (n - dist) r := by
  by_cases hleaf : p.leftmostPtr = 0
  · exact toLeft_leaf h hdist hleft hright hfit b hleaf
  · exact toLeft_inner h hdist hleft hright hfit b hleaf (hpos hleaf)

end

end

end Divided

end McfKv.Btree
