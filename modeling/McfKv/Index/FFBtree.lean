import McfKv.Index.Page
import McfKv.Lib.Fence

/-!
# The FAST and FAIR tree (`multi-cuckoo-index/ff_btreee.h`, `ff_btreee.cc`)

The tree is a heap of pages. Every page of a level points to its right sibling, and the
records of a page on level `l + 1` point to pages on level `l`. `Insert` walks down to a
leaf and stores the entry there; a full page is split, and the first key of the new right
half is inserted into the level above by `InsertInternal`, which walks down from the root
again.

The functions are total here: the loops take the height of the tree, and the
number of pages, as fuel. A result `none` stands for a read through a null or dangling
pointer and for running out of fuel; `Rep.search` and `Rep.insert` exclude both.

## The structure behind the heap

A `Shape` assigns to each level, and to each lower fence on the level, the address of the
page that starts there. `Rep` relates it to the pages in the heap:

* the keys of a page lie between its fence and the next one on its level;
* the sibling pointer leads to the page at the next fence;
* the children of a page on level `l + 1` are the pages on level `l` at its own fence and
  at its keys, and every page below the root is such a child.

In the middle of an operation the tree may lack some of this: a page that no parent points
to, or a page with too few entries. The exceptions are the argument `Slack`.
-/

namespace McfKv.Btree

open Fence

/-- `class FFBtree`, with the heap its pages live in and the number of pages allocated. -/
structure Tree where
  root : Addr
  height : ℕ
  heap : Addr → Option Page
  next : ℕ

namespace Tree

/-- `records[0].key` of a page in the heap. -/
def firstKey (t : Tree) (a : Addr) : Option ℕ := (t.heap a).map fun p => p.key 0

/-- Write a page to the heap. -/
def put (t : Tree) (a : Addr) (p : Page) : Tree :=
  { t with heap := Function.update t.heap a (some p) }

/-- Follow `linear_search` down from a page until one satisfies the test. -/
def descend (t : Tree) (k : ℕ) (stop : Page → Bool) : ℕ → Addr → Option Addr
  | 0, _ => none
  | fuel + 1, a =>
    (t.heap a).bind fun p =>
      if stop p then some a
      else (p.linearSearch t.firstKey k).bind fun child => descend t k stop fuel child

/-- The second loop of `FFBtree::Search`: while the result is the sibling, go there. -/
def leafLoop (t : Tree) (k : ℕ) : ℕ → Addr → Option Addr
  | 0, _ => none
  | fuel + 1, a =>
    (t.heap a).bind fun p =>
      (p.linearSearch t.firstKey k).bind fun r =>
        if r = p.siblingPtr then if r = 0 then some 0 else leafLoop t k fuel r
        else some r

/-- `FFBtree::Search`. -/
def search (t : Tree) (k : ℕ) : Option Addr :=
  (t.descend k (fun p => p.leftmostPtr = 0) t.height t.root).bind fun leaf =>
    t.leafLoop k t.next leaf

end Tree

/-- Move the records from `start` on into an empty page, one insertion at a time. -/
def migrate (p sibling : Page) (start n : ℕ) : Page.Inserted :=
  (List.range' start (n - start)).foldl
    (fun acc i => acc.page.insertKey (p.key i) (p.ptr i) acc.numEntries) ⟨sibling, 0, 0⟩

/-- `(int) ((cardinality - 1) * 0.5)`: the number of entries that every page but the root has. -/
def minEntries : ℕ := (cardinality - 1) / 2

/-- The overflow branch of `Page::store`, up to the point where the sibling is complete:
the new page, what is left in `*upd_ptr`, and `sibling_cnt`. -/
def rightHalf (p : Page) (n : ℕ) : Page.Inserted :=
  let moved :=
    if p.leftmostPtr = 0 then migrate p (Page.new p.level) (n / 2) n
    else migrate p (Page.new p.level) (n / 2 + 1) n
  { moved with
    page := { moved.page with
      leftmostPtr := if p.leftmostPtr = 0 then 0 else p.ptr (n / 2)
      siblingPtr := p.siblingPtr } }

/-- What the overflow branch makes of the old page; `b` is the address of the new one. -/
def leftHalf (p : Page) (n : ℕ) (b : Addr) : Page :=
  { p with
    siblingPtr := b
    switchCounter := (p.switchCounter + if p.isForward then 2 else 1) % 256
    ptr := Function.update p.ptr (n / 2) 0
    lastIndex := ((n / 2 : ℕ) : ℤ) - 1 }

/-- The two halves of a full page after the new entry has been stored, the key between
them, and what is left in `*upd_ptr`. -/
structure Split where
  left : Page
  right : Page
  splitKey : ℕ
  upd : Addr

/-- The overflow branch of `Page::store`, up to the insertion of the key. -/
def split (p : Page) (n : ℕ) (b : Addr) (k : ℕ) (q : Addr) : Split :=
  let left := leftHalf p n b
  let right := rightHalf p n
  if k < p.key (n / 2) then
    ⟨(left.insertKey k q (n / 2)).page, right.page, p.key (n / 2), right.old⟩
  else ⟨left, (right.page.insertKey k q right.numEntries).page, p.key (n / 2), right.old⟩

section Alloc

-- the addresses that `pmalloc` returns for pages, in order
variable (alloc : ℕ → Addr)

/-- `FFBtree::FFBtree`. -/
def Tree.new : Tree where
  root := alloc 0
  height := 1
  heap := Function.update (fun _ => none) (alloc 0) (some (Page.new 0))
  next := 1

/-- `Page::store` on a page that does not pass the key on to its sibling. The flag says
whether `upd_ptr` is not null; the second result is `*upd_ptr`. -/
def storeHere (insertInternal : Tree → ℕ → Addr → ℕ → Option Tree) (t : Tree) (a : Addr)
    (k : ℕ) (q : Addr) (hasUpd : Bool) : Option (Tree × Addr) :=
  (t.heap a).bind fun p => p.count.bind fun n =>
    if n < cardinality - 1 then
      if hasUpd then
        some (t.put a (p.insertKey k q n).page, (p.insertKey k q n).old)
      else none
    else if p.leftmostPtr = 0 ∧ hasUpd = false then none
    else
      let b := alloc t.next
      let s := split p n b k q
      let t' := { (t.put b s.right).put a s.left with next := t.next + 1 }
      if t.root = a then
        let c := alloc (t.next + 1)
        some ({ t'.put c (Page.newRoot a s.splitKey b (p.level + 1)) with
                root := c
                height := t.height + 1
                next := t.next + 2 }, s.upd)
      else (insertInternal t' s.splitKey b (p.level + 1)).map fun t => (t, s.upd)

/-- `Page::store` with `invalid_sibling` null, as all callers pass it. It hands the key
to the sibling without an `upd_ptr`. -/
def store (insertInternal : Tree → ℕ → Addr → ℕ → Option Tree) :
    ℕ → Tree → Addr → ℕ → Addr → Bool → Option (Tree × Addr)
  | 0, _, _, _, _, _ => none
  | fuel + 1, t, a, k, q, hasUpd =>
    (t.heap a).bind fun p =>
      if p.siblingPtr = 0 then storeHere alloc insertInternal t a k q hasUpd
      else
        (t.firstKey p.siblingPtr).bind fun first =>
          if first < k then store insertInternal fuel t p.siblingPtr k q false
          else storeHere alloc insertInternal t a k q hasUpd

/-- `FFBtree::InsertInternal`. -/
def insertInternal : ℕ → Tree → ℕ → Addr → ℕ → Option Tree
  | 0, _, _, _, _ => none
  | fuel + 1, t, k, q, level =>
    (t.heap t.root).bind fun r =>
      if r.level < level then some t
      else
        (t.descend k (fun p => p.level ≤ level) t.height t.root).bind fun a =>
          (store alloc (insertInternal fuel) t.next t a k q true).map Prod.fst

/-- `FFBtree::Insert`: the tree afterwards and the pointer that was replaced. -/
def Tree.insert (t : Tree) (k : ℕ) (q : Addr) : Option (Tree × Addr) :=
  (t.descend k (fun p => p.leftmostPtr = 0) t.height t.root).bind fun leaf =>
    store alloc (insertInternal alloc t.height) t.next t leaf k q true

end Alloc

/-! ## Storing an entry in a page -/

namespace Page

/-- An entry of the page after `k` has been stored with `q`. -/
def Stored (p : Page) (n k : ℕ) (q : Addr) (x : ℕ) (y : Addr) : Prop :=
  (x = k ∧ y = q) ∨ (x ≠ k ∧ p.Has n x y)

/-- The header fields that an insertion does not touch. -/
def SameHeader (p p' : Page) : Prop :=
  p'.leftmostPtr = p.leftmostPtr ∧ p'.siblingPtr = p.siblingPtr ∧ p'.level = p.level

theorem stored_of_new {p : Page} {n k : ℕ} (hnew : ∀ i < n, p.key i ≠ k) (q : Addr) (x : ℕ)
    (y : Addr) : p.Stored n k q x y ↔ (x = k ∧ y = q) ∨ p.Has n x y := by
  refine or_congr Iff.rfl ⟨fun h => h.2, fun h => ⟨?_, h⟩⟩
  obtain ⟨i, hi, rfl, -⟩ := h
  exact hnew i hi

/-- **`insert_key` stores the entry**, new or not. An internal page does not look for a
duplicate, so its key must be new. -/
theorem insertKey_stored {p : Page} {n k : ℕ} {q : Addr} (h : p.Sound n)
    (hn : n < cardinality - 1) (hq : q ≠ 0) (hinner : p.leftmostPtr ≠ 0 → ∀ i < n, p.key i ≠ k) :
    ∃ n' > 0, n ≤ n' ∧ (p.insertKey k q n).page.Live n' ∧ p.SameHeader (p.insertKey k q n).page ∧
      ∀ x y, (p.insertKey k q n).page.Has n' x y ↔ p.Stored n k q x y := by
  by_cases hnew : ∀ i < n, p.key i ≠ k
  · obtain ⟨p', heq, hlive, hhas, hheader⟩ := insertKey_new h hn hq hnew
    rw [heq]
    refine ⟨n + 1, n.succ_pos, n.le_succ, hlive, hheader, fun x y => ?_⟩
    rw [stored_of_new hnew]
    exact hhas x y
  · push Not at hnew
    obtain ⟨i, hi, rfl⟩ := hnew
    have hleaf : p.leftmostPtr = 0 := by
      by_contra hne
      exact hinner hne i hi rfl
    obtain ⟨p', heq, hlive, hhas, hheader⟩ := insertKey_duplicate h hleaf hq ⟨i, hi, rfl, rfl⟩
    rw [heq]
    exact ⟨n, by omega, le_rfl, hlive, hheader, hhas⟩

theorem new_live (level : ℕ) : (new level).Live 0 where
  le := Nat.zero_le _
  ptr_ne _ hi := absurd hi (Nat.not_lt_zero _)
  ptr_end := rfl
  sorted _ _ _ hj := absurd hj (Nat.not_lt_zero _)
  last := rfl
  forward := rfl

end Page

/-- Insert entries into a page, one after the other. -/
def insertMany (acc : Page.Inserted) (entries : List (ℕ × Addr)) : Page.Inserted :=
  entries.foldl (fun acc e => acc.page.insertKey e.1 e.2 acc.numEntries) acc

/-- **New entries** are added to the page, which stays in order. -/
theorem insertMany_spec (entries : List (ℕ × Addr)) :
    ∀ {r : Page} {c : ℕ} (old : Addr), r.Sound c → c + entries.length ≤ cardinality - 1 →
      (∀ e ∈ entries, e.2 ≠ 0) → (∀ e ∈ entries, ∀ i < c, r.key i ≠ e.1) →
      (entries.map Prod.fst).Nodup →
      ∃ r' old', insertMany ⟨r, old, c⟩ entries = ⟨r', old', c + entries.length⟩ ∧
        (old = 0 → old' = 0) ∧ r'.Sound (c + entries.length) ∧
        (r.isForward = true → r'.isForward = true) ∧ r.SameHeader r' ∧
        ∀ x y, r'.Has (c + entries.length) x y ↔ (x, y) ∈ entries ∨ r.Has c x y := by
  induction entries with
  | nil =>
    intro r c old h _ _ _ _
    exact ⟨r, old, rfl, id, h, id, ⟨rfl, rfl, rfl⟩, fun x y => by simp⟩
  | cons e entries ih =>
    intro r c old h hlen hptr hnew hnodup
    rw [List.length_cons] at hlen
    rw [List.map_cons, List.nodup_cons] at hnodup
    obtain ⟨r₁, heq₁, hlive₁, hhas₁, hheader₁⟩ := Page.insertKey_new h (by omega)
      (hptr e List.mem_cons_self) (hnew e List.mem_cons_self)
    obtain ⟨r', old', heq, hold, hsound, hforward, hheader, hhas⟩ :=
      ih 0 hlive₁.sound (by omega) (fun e' he' => hptr e' (List.mem_cons_of_mem _ he'))
        (fun e' he' i hi hkey => by
          rcases (hhas₁ _ _).mp ⟨i, hi, hkey, rfl⟩ with ⟨heq', -⟩ | ⟨j, hj, hkey', -⟩
          · exact hnodup.1 (List.mem_map.mpr ⟨e', he', heq'⟩)
          · exact hnew e' (List.mem_cons_of_mem _ he') j hj hkey')
        hnodup.2
    rw [List.length_cons, show c + (entries.length + 1) = c + 1 + entries.length by omega]
    refine ⟨r', old', ?_, fun _ => hold rfl, hsound, fun _ => hforward hlive₁.forward,
      ⟨hheader.1.trans hheader₁.1, hheader.2.1.trans hheader₁.2.1,
        hheader.2.2.trans hheader₁.2.2⟩, fun x y => ?_⟩
    · rw [insertMany, List.foldl_cons, heq₁]
      exact heq
    · rw [hhas, hhas₁, List.mem_cons, Prod.ext_iff, or_left_comm, or_assoc]

namespace Page

/-- Some of the records of a page. -/
def records (p : Page) (is : List ℕ) : List (ℕ × Addr) := is.map fun i => (p.key i, p.ptr i)

theorem mem_records {p : Page} {is : List ℕ} {x : ℕ} {y : Addr} :
    (x, y) ∈ p.records is ↔ ∃ i ∈ is, p.key i = x ∧ p.ptr i = y := by
  simp [records]

theorem Sound.records_nodup {p : Page} {n : ℕ} (h : p.Sound n) {is : List ℕ} (his : is.Nodup)
    (hlt : ∀ i ∈ is, i < n) : ((p.records is).map Prod.fst).Nodup := by
  rw [records, List.map_map]
  exact his.map_on fun i hi j hj heq => h.key_inj (hlt i hi) (hlt j hj) heq

end Page

theorem Page.length_records (p : Page) (is : List ℕ) : (p.records is).length = is.length :=
  List.length_map ..

/-- **Moving records to an empty page** keeps them, in order. -/
theorem insertMany_records {p r : Page} {n : ℕ} (h : p.Sound n) (hr : r.Sound 0) (start : ℕ) :
    ∃ r', insertMany ⟨r, 0, 0⟩ (p.records (List.range' start (n - start))) = ⟨r', 0, n - start⟩ ∧
      r'.Sound (n - start) ∧ (r.isForward = true → r'.isForward = true) ∧ r.SameHeader r' ∧
      ∀ x y, r'.Has (n - start) x y ↔ ∃ i, start ≤ i ∧ i < n ∧ p.key i = x ∧ p.ptr i = y := by
  have hmem : ∀ i, i ∈ List.range' start (n - start) ↔ start ≤ i ∧ i < n := fun i => by
    rw [List.mem_range'_1]
    omega
  have hlen : (p.records (List.range' start (n - start))).length = n - start := by
    rw [Page.length_records, List.length_range']
  obtain ⟨r', old, heq, hold, hsound, hforward, hheader, hhas⟩ :=
    insertMany_spec (p.records (List.range' start (n - start))) 0 hr
      (by rw [hlen]; have := h.le; omega)
      (fun e he => by
        obtain ⟨i, hi, rfl⟩ := List.mem_map.mp he
        exact h.ptr_ne i ((hmem i).mp hi).2)
      (fun e _ i hi => absurd hi (Nat.not_lt_zero i))
      (h.records_nodup List.nodup_range' fun i hi => ((hmem i).mp hi).2)
  rw [hlen, Nat.zero_add] at heq hsound hhas
  rw [hold rfl] at heq
  refine ⟨r', heq, hsound, hforward, hheader, fun x y => ?_⟩
  rw [hhas, Page.mem_records]
  simp only [hmem, and_assoc]
  exact or_iff_left fun ⟨i, hi, _⟩ => absurd hi (Nat.not_lt_zero i)

theorem migrate_spec {p : Page} {n : ℕ} (h : p.Sound n) (start level : ℕ) :
    ∃ r, migrate p (Page.new level) start n = ⟨r, 0, n - start⟩ ∧
      r.Live (n - start) ∧ (Page.new level).SameHeader r ∧
      ∀ x y, r.Has (n - start) x y ↔ ∃ i, start ≤ i ∧ i < n ∧ p.key i = x ∧ p.ptr i = y := by
  obtain ⟨r, heq, hsound, hforward, hheader, hhas⟩ :=
    insertMany_records h (Page.new_live level).sound start
  refine ⟨r, ?_, hsound.live (hforward rfl), hheader, hhas⟩
  rw [← heq, insertMany, Page.records, List.foldl_map, migrate]

section Halves

variable {p : Page} {n : ℕ}

theorem has_front (h : p.Sound n) {m : ℕ} (hm : m < n) (x : ℕ) (y : Addr) :
    p.Has m x y ↔ p.Has n x y ∧ x < p.key m := by
  constructor
  · rintro ⟨i, hi, rfl, rfl⟩
    exact ⟨⟨i, hi.trans hm, rfl, rfl⟩, h.sorted i m hi hm⟩
  · rintro ⟨⟨i, hi, rfl, rfl⟩, hlt⟩
    refine ⟨i, ?_, rfl, rfl⟩
    by_contra hge
    rcases Nat.eq_or_lt_of_le (Nat.not_lt.mp hge) with rfl | hgt
    · exact lt_irrefl _ hlt
    · exact absurd (h.sorted m i hgt hi) (Nat.lt_asymm hlt)

/-- The page with the first `m` of its records. -/
def Page.truncated (p : Page) (m : ℕ) : Page :=
  { p with
    ptr := Function.update p.ptr m 0
    lastIndex := (m : ℤ) - 1 }

section

variable (h : p.Sound n)

include h

theorem truncated_sound {m : ℕ} (hm : m ≤ n) : (p.truncated m).Sound m where
  le := hm.trans h.le
  ptr_ne i hi := by
    change Function.update p.ptr m 0 i ≠ 0
    rw [Function.update_of_ne hi.ne]
    exact h.ptr_ne i (by omega)
  ptr_end := Function.update_self ..
  sorted i j hij hj := h.sorted i j hij (by omega)
  last := rfl

theorem truncated_has {m : ℕ} (hm : m < n) (x : ℕ) (y : Addr) :
    (p.truncated m).Has m x y ↔ p.Has n x y ∧ x < p.key m := by
  rw [← has_front h hm]
  refine exists_congr fun i => and_congr_right fun hi => ?_
  rw [show (p.truncated m).ptr i = p.ptr i from Function.update_of_ne hi.ne ..]
  rfl

theorem leftHalf_live (b : Addr) : (leftHalf p n b).Live (n / 2) where
  le := (Nat.div_le_self n 2).trans h.le
  ptr_ne := (truncated_sound h (Nat.div_le_self n 2)).ptr_ne
  ptr_end := (truncated_sound h (Nat.div_le_self n 2)).ptr_end
  sorted := (truncated_sound h (Nat.div_le_self n 2)).sorted
  last := rfl
  forward := by
    simp only [leftHalf, Page.isForward, decide_eq_true_eq]
    split_ifs <;> omega

theorem leftHalf_has (hn : 0 < n) (b : Addr) (x : ℕ) (y : Addr) :
    (leftHalf p n b).Has (n / 2) x y ↔ p.Has n x y ∧ x < p.key (n / 2) :=
  truncated_has h (Nat.div_lt_self hn (by decide)) x y

theorem has_from {m : ℕ} (hm : m < n) (x : ℕ) (y : Addr) :
    (∃ i, m ≤ i ∧ i < n ∧ p.key i = x ∧ p.ptr i = y) ↔ p.Has n x y ∧ p.key m ≤ x := by
  constructor
  · rintro ⟨i, hi, hin, rfl, rfl⟩
    exact ⟨⟨i, hin, rfl, rfl⟩, h.key_le hi hin⟩
  · rintro ⟨⟨i, hi, rfl, rfl⟩, hle⟩
    refine ⟨i, ?_, hi, rfl, rfl⟩
    by_contra hlt
    exact absurd (h.sorted i m (by omega) hm) (not_lt.mpr hle)

theorem has_behind {m : ℕ} (hm : m < n) (x : ℕ) (y : Addr) :
    (∃ i, m + 1 ≤ i ∧ i < n ∧ p.key i = x ∧ p.ptr i = y) ↔ p.Has n x y ∧ p.key m < x := by
  constructor
  · rintro ⟨i, hi, hin, rfl, rfl⟩
    exact ⟨⟨i, hin, rfl, rfl⟩, h.sorted m i hi hin⟩
  · rintro ⟨⟨i, hi, rfl, rfl⟩, hlt⟩
    refine ⟨i, ?_, hi, rfl, rfl⟩
    by_contra hge
    exact absurd (h.key_le (by omega) hm) (not_le.mpr hlt)

/-- **The new right page** of a full page: the records from the middle on, without the
middle record itself when the page is internal, where it becomes the leftmost pointer. -/
theorem rightHalf_spec (hn : n = cardinality - 1) :
    ∃ j ≥ minEntries, j < cardinality - 1 ∧ (rightHalf p n).numEntries = j ∧
      (rightHalf p n).old = 0 ∧ (rightHalf p n).page.Live j ∧
      (rightHalf p n).page.siblingPtr = p.siblingPtr ∧ (rightHalf p n).page.level = p.level ∧
      (rightHalf p n).page.leftmostPtr = (if p.leftmostPtr = 0 then 0 else p.ptr (n / 2)) ∧
      ∀ x y, (rightHalf p n).page.Has j x y ↔
        p.Has n x y ∧ p.key (n / 2) ≤ x ∧ (p.leftmostPtr ≠ 0 → x ≠ p.key (n / 2)) := by
  have hcard : cardinality = 30 := rfl
  have hmin : minEntries = 14 := rfl
  by_cases hleaf : p.leftmostPtr = 0
  · obtain ⟨r, heq, hlive, hheader, hhas⟩ := migrate_spec h (n / 2) p.level
    have hright : rightHalf p n =
        ⟨{ r with leftmostPtr := 0, siblingPtr := p.siblingPtr }, 0, n - n / 2⟩ := by
      simp only [rightHalf, hleaf, if_true, heq]
    rw [hright, if_pos hleaf]
    refine ⟨n - n / 2, by omega, by omega, rfl, rfl,
      (hlive.sound.setHeader _ _).live hlive.forward, rfl, hheader.2.2, rfl, fun x y => ?_⟩
    rw [← and_assoc, ← has_from h (by omega), and_iff_left (absurd hleaf)]
    exact hhas x y
  · obtain ⟨r, heq, hlive, hheader, hhas⟩ := migrate_spec h (n / 2 + 1) p.level
    have hright : rightHalf p n =
        ⟨{ r with leftmostPtr := p.ptr (n / 2), siblingPtr := p.siblingPtr }, 0,
          n - (n / 2 + 1)⟩ := by
      simp only [rightHalf, hleaf, if_false, heq]
    rw [hright, if_neg hleaf]
    refine ⟨n - (n / 2 + 1), by omega, by omega, rfl, rfl,
      (hlive.sound.setHeader _ _).live hlive.forward, rfl, hheader.2.2, rfl, fun x y => ?_⟩
    have hlt : (p.key (n / 2) ≤ x ∧ (p.leftmostPtr ≠ 0 → x ≠ p.key (n / 2))) ↔
        p.key (n / 2) < x := by
      constructor
      · rintro ⟨hle, hne⟩
        exact lt_of_le_of_ne hle (hne hleaf).symm
      · intro hlt
        exact ⟨hlt.le, fun _ => hlt.ne'⟩
    rw [hlt, ← has_behind h (by omega)]
    exact hhas x y

end

/-- **The split of a full page**: the entries of the page and the new one, divided at the
middle key. An internal page keeps the middle key in neither half. -/
structure IsSplit (p : Page) (n : ℕ) (b : Addr) (k : ℕ) (q : Addr) (nl nr : ℕ) (s : Split) :
    Prop where
  left_full : minEntries ≤ nl
  left_live : s.left.Live nl
  left_level : s.left.level = p.level
  left_leftmost : s.left.leftmostPtr = p.leftmostPtr
  left_sibling : s.left.siblingPtr = b
  left_has : ∀ x y, s.left.Has nl x y ↔ p.Stored n k q x y ∧ x < s.splitKey
  right_full : minEntries ≤ nr
  right_live : s.right.Live nr
  right_level : s.right.level = p.level
  right_leaf : p.leftmostPtr = 0 → s.right.leftmostPtr = 0
  right_inner : p.leftmostPtr ≠ 0 → p.Has n s.splitKey s.right.leftmostPtr
  right_sibling : s.right.siblingPtr = p.siblingPtr
  right_has : ∀ x y, s.right.Has nr x y ↔
    p.Stored n k q x y ∧ s.splitKey ≤ x ∧ (p.leftmostPtr ≠ 0 → x ≠ s.splitKey)
  splitKey : ∃ y, p.Has n s.splitKey y
  above_first : p.key 0 < s.splitKey

theorem split_spec {k : ℕ} {q : Addr} (h : p.Sound n) (hn : n = cardinality - 1) (hq : q ≠ 0)
    (hinner : p.leftmostPtr ≠ 0 → ∀ i < n, p.key i ≠ k) (b : Addr) :
    ∃ nl nr, IsSplit p n b k q nl nr (split p n b k q) := by
  have hcard : cardinality = 30 := rfl
  have hmin : minEntries = 14 := rfl
  have hleft := leftHalf_live h b
  obtain ⟨j, hj, hjlt, hnum, -, hright, hsib, hlevel, hleftmost, hhas⟩ := rightHalf_spec h hn
  have hmid : p.Has n (p.key (n / 2)) (p.ptr (n / 2)) := ⟨n / 2, by omega, rfl, rfl⟩
  have hfirst : p.key 0 < p.key (n / 2) := h.sorted 0 _ (by omega) (by omega)
  have hrightLeaf : p.leftmostPtr = 0 → (rightHalf p n).page.leftmostPtr = 0 := fun hleaf => by
    rw [hleftmost, if_pos hleaf]
  have hrightInner : p.leftmostPtr ≠ 0 →
      p.Has n (p.key (n / 2)) (rightHalf p n).page.leftmostPtr := fun hne => by
    rw [hleftmost, if_neg hne]
    exact hmid
  unfold split
  by_cases hk : k < p.key (n / 2)
  · -- the new entry goes to the left half
    rw [if_pos hk]
    have hnew : p.leftmostPtr ≠ 0 → ∀ i < n / 2, (leftHalf p n b).key i ≠ k :=
      fun hne i hi => hinner hne i (by omega)
    obtain ⟨nl, -, hnl, hlive, hheader, hstored⟩ :=
      Page.insertKey_stored hleft.sound (by omega) hq hnew
    refine ⟨nl, j, by omega, hlive, hheader.2.2, hheader.1, hheader.2.1, fun x y => ?_, hj, hright,
      hlevel, hrightLeaf, hrightInner, hsib, fun x y => ?_, ⟨_, hmid⟩, hfirst⟩
    · rw [hstored, Page.Stored, leftHalf_has h (by omega), Page.Stored]
      constructor
      · rintro (⟨rfl, rfl⟩ | ⟨hne, hx, hlt⟩)
        · exact ⟨Or.inl ⟨rfl, rfl⟩, hk⟩
        · exact ⟨Or.inr ⟨hne, hx⟩, hlt⟩
      · rintro ⟨⟨rfl, rfl⟩ | ⟨hne, hx⟩, hlt⟩
        · exact Or.inl ⟨rfl, rfl⟩
        · exact Or.inr ⟨hne, hx, hlt⟩
    · rw [hhas, Page.Stored]
      refine and_congr_left fun hx => ⟨fun hp => Or.inr ⟨?_, hp⟩, ?_⟩
      · rintro rfl
        exact absurd hx.1 (not_le.mpr hk)
      · rintro (⟨rfl, -⟩ | ⟨-, hp⟩)
        · exact absurd hx.1 (not_le.mpr hk)
        · exact hp
  · -- the new entry goes to the right half
    rw [if_neg hk, hnum]
    have hnew : (rightHalf p n).page.leftmostPtr ≠ 0 → ∀ i < j, (rightHalf p n).page.key i ≠ k := by
      intro hne i hi hkey
      have hne' : p.leftmostPtr ≠ 0 := fun h0 => hne (hrightLeaf h0)
      obtain ⟨i', hi', hkey', -⟩ := ((hhas _ _).mp ⟨i, hi, hkey, rfl⟩).1
      exact hinner hne' i' hi' hkey'
    obtain ⟨nr, -, hnr, hlive, hheader, hstored⟩ :=
      Page.insertKey_stored hright.sound hjlt hq hnew
    refine ⟨n / 2, nr, by omega, hleft, rfl, rfl, rfl, fun x y => ?_, by omega, hlive,
      hheader.2.2.trans hlevel, fun h0 => hheader.1.trans (hrightLeaf h0),
      fun h0 => ?_, hheader.2.1.trans hsib, fun x y => ?_, ⟨_, hmid⟩, hfirst⟩
    · rw [leftHalf_has h (by omega), Page.Stored]
      refine and_congr_left fun hx => ⟨fun hp => Or.inr ⟨?_, hp⟩, ?_⟩
      · rintro rfl
        exact hk hx
      · rintro (⟨rfl, -⟩ | ⟨-, hp⟩)
        · exact absurd hx hk
        · exact hp
    · rw [hheader.1]
      exact hrightInner h0
    · rw [hstored, Page.Stored, hhas, Page.Stored]
      constructor
      · rintro (⟨rfl, rfl⟩ | ⟨hne, hx, hle⟩)
        · exact ⟨Or.inl ⟨rfl, rfl⟩, not_lt.mp hk, fun h0 => (hinner h0 (n / 2) (by omega)).symm⟩
        · exact ⟨Or.inr ⟨hne, hx⟩, hle⟩
      · rintro ⟨⟨rfl, rfl⟩ | ⟨hne, hx⟩, hle⟩
        · exact Or.inl ⟨rfl, rfl⟩
        · exact Or.inr ⟨hne, hx, hle⟩

end Halves

/-! ## The shape of a tree -/

/-- What a tree is for: a map, and for each level the lower fences of its pages with their
addresses. Everything that the pages of a tree in order hold follows from these. -/
structure Shape where
  top : ℕ
  addr : ℕ → ℕ → Option Addr
  map : ℕ → Option Addr

namespace Shape

/-- The lower fences of the pages of a level. -/
def fences (S : Shape) (l : ℕ) : Set ℕ := {x | ∃ a, S.addr l x = some a}

theorem fences_congr {S S' : Shape} {l : ℕ} (h : S'.addr l = S.addr l) :
    S'.fences l = S.fences l := by
  unfold fences
  rw [h]

/-- What the pages of a level lead to: the values on level `0`, and above it the pages of
the level below. -/
def contents (S : Shape) : ℕ → ℕ → Option Addr
  | 0 => S.map
  | l + 1 => S.addr l

end Shape

/-- What a tree may lack in the middle of an operation: levels with a key that is missing
there as an entry, and pages with a number of entries that may be too low. `removals` says
whether there has been a `Remove`, after which pages may be scanned from right to left and
`height` may be too large. -/
structure Slack where
  pend : ℕ → ℕ → Prop
  size : ℕ → ℕ → Option ℕ
  removals : Prop

namespace Slack

variable {σ : Slack} {l k lo c : ℕ}

/-- A tree that is built by insertions, between two of them. -/
def tight : Slack := ⟨fun _ _ => False, fun _ _ => none, False⟩

/-- A tree between two operations. -/
def loose : Slack := ⟨fun _ _ => False, fun _ _ => none, True⟩

/-- The key `k` is missing on level `l`. -/
def lacking (σ : Slack) (l k : ℕ) : Slack :=
  { σ with pend := fun l' x => (l' = l ∧ x = k) ∨ σ.pend l' x }

/-- The page at fence `lo` of level `l` has `c` entries, which may be too few. -/
def sized (σ : Slack) (l lo c : ℕ) : Slack :=
  { σ with size := fun l' x => if l' = l ∧ x = lo then some c else σ.size l' x }

/-- Nothing is missing from level `l` on. -/
def Complete (σ : Slack) (l : ℕ) : Prop := ∀ l' ≥ l, ∀ x, ¬ σ.pend l' x ∧ σ.size l' x = none

theorem Complete.mono {l' : ℕ} (h : σ.Complete l) (hle : l ≤ l') : σ.Complete l' :=
  fun l'' hl'' => h l'' (hle.trans hl'')

theorem complete_tight (l : ℕ) : tight.Complete l := fun _ _ _ => ⟨id, rfl⟩

theorem complete_loose (l : ℕ) : loose.Complete l := fun _ _ _ => ⟨id, rfl⟩

theorem Complete.lacking (h : σ.Complete (l + 1)) (k : ℕ) : (σ.lacking l k).Complete (l + 1) := by
  refine fun l' hl' x => ⟨?_, (h l' hl' x).2⟩
  rintro (⟨rfl, -⟩ | hpend)
  · omega
  · exact (h l' hl' x).1 hpend

theorem Complete.sized (h : σ.Complete (l + 1)) (lo c : ℕ) : (σ.sized l lo c).Complete (l + 1) :=
  fun l' hl' x => ⟨(h l' hl' x).1, (if_neg fun hc => by omega).trans (h l' hl' x).2⟩

theorem lacking_pend_self : (σ.lacking l k).pend l k := Or.inl ⟨rfl, rfl⟩

theorem lacking_pend_of_ne {l' x : ℕ} (h : (l', x) ≠ (l, k)) :
    (σ.lacking l k).pend l' x ↔ σ.pend l' x :=
  or_iff_right fun hc => h (by rw [hc.1, hc.2])

theorem sized_size_self : (σ.sized l lo c).size l lo = some c := if_pos ⟨rfl, rfl⟩

theorem sized_size_of_ne {l' x : ℕ} (h : (l', x) ≠ (l, lo)) :
    (σ.sized l lo c).size l' x = σ.size l' x :=
  if_neg fun hc => h (by rw [hc.1, hc.2])

end Slack

namespace Shape

/-- An entry of the page at fence `lo`. The child at `lo` itself is the leftmost pointer
and not an entry. -/
def Entry (S : Shape) (σ : Slack) (l lo x : ℕ) (y : Addr) : Prop :=
  S.contents l x = some y ∧ Covers (S.fences l) x lo ∧ (l ≠ 0 → x ≠ lo) ∧ ¬ σ.pend l x

/-- The sibling pointer leads to the page at the next fence. -/
def IsSibling (S : Shape) (l lo : ℕ) (a : Addr) : Prop :=
  (IsLast (S.fences l) lo ∧ a = 0) ∨ ∃ y, IsNext (S.fences l) lo y ∧ S.addr l y = some a

/-- The page at `lo` is not the only one of its level. -/
def Shared (S : Shape) (l lo : ℕ) : Prop := ∃ y ∈ S.fences l, y ≠ lo

/-- The page that belongs at a fence. -/
structure NodeOk (S : Shape) (σ : Slack) (l lo : ℕ) (p : Page) (n : ℕ) : Prop where
  sound : p.Sound n
  forward : ¬ σ.removals → p.isForward = true
  level : p.level = l
  pos : l ≠ 0 ∨ lo ≠ 0 → 0 < n
  stale : n = 0 → p.ptr 1 = 0
  leaf : l = 0 → p.leftmostPtr = 0
  inner : l ≠ 0 → S.contents l lo = some p.leftmostPtr
  sibling : S.IsSibling l lo p.siblingPtr
  has : ∀ x y, p.Has n x y ↔ S.Entry σ l lo x y
  full : S.Shared l lo → σ.size l lo = none → minEntries ≤ n
  size : ∀ c, σ.size l lo = some c → n = c

theorem NodeOk.live {S : Shape} {l lo : ℕ} {p : Page} {n : ℕ} (h : S.NodeOk .tight l lo p n) :
    p.Live n :=
  h.sound.live (h.forward id)

/-- The levels of a shape: nested, with a page at fence `0` on each, and with different
addresses for different pages. -/
structure Ok (S : Shape) (σ : Slack) : Prop where
  zero : ∀ l ≤ S.top, 0 ∈ S.fences l
  above : ∀ l, ∀ x ∈ S.fences l, l ≤ S.top
  nested : ∀ l, S.fences (l + 1) ⊆ S.fences l
  inj : ∀ l x l' x' a, S.addr l x = some a → S.addr l' x' = some a → l = l' ∧ x = x'
  nonnull : ∀ l x a, S.addr l x = some a → a ≠ 0
  pending : ∀ l x, σ.pend l x → ∃ l', l = l' + 1 ∧ x ∈ S.fences l' ∧ x ∉ S.fences l

/-- The top level is one page. -/
def Top (S : Shape) : Prop := ∀ x ∈ S.fences S.top, x = 0

end Shape

/-- **The representation relation**: the pages of the shape are in the heap. -/
structure Rep (alloc : ℕ → Addr) (t : Tree) (S : Shape) (σ : Slack) : Prop where
  ok : S.Ok σ
  root : S.addr S.top 0 = some t.root
  height_le : S.top + 1 ≤ t.height
  height : ¬ σ.removals → t.height = S.top + 1
  page : ∀ l lo a, S.addr l lo = some a → ∃ p n, t.heap a = some p ∧ S.NodeOk σ l lo p n
  used : ∀ l lo a, S.addr l lo = some a → ∃ i < t.next, alloc i = a

/-! ## Searching -/

section Search

variable {alloc : ℕ → Addr} {t : Tree} {S : Shape} {σ : Slack} {l lo k : ℕ}

variable {a : Addr} {p : Page} {n : ℕ}

theorem Rep.firstKey_entry (h : Rep alloc t S σ) (ha : S.addr l lo = some a) (hlo : lo ≠ 0) :
    ∃ first y, t.firstKey a = some first ∧ S.Entry σ l lo first y ∧
      ∀ x y', S.Entry σ l lo x y' → first ≤ x := by
  obtain ⟨p, n, hheap, hp⟩ := h.page l lo a ha
  have hpos : 0 < n := hp.pos (Or.inr hlo)
  refine ⟨p.key 0, p.ptr 0, by rw [Tree.firstKey, hheap]; rfl, (hp.has _ _).mp ⟨0, hpos, rfl, rfl⟩,
    fun x y' hx => ?_⟩
  obtain ⟨i, hi, rfl, -⟩ := (hp.has x y').mpr hx
  exact hp.sound.key_zero_le hi

section

variable (h : Rep alloc t S σ) (hp : S.NodeOk σ l lo p n) (hk : ∀ y ∈ S.fences l, lo < y → k < y)

include h hp hk

theorem Rep.lt_sibling :
    p.siblingPtr = 0 ∨ ∃ first, t.firstKey p.siblingPtr = some first ∧ k < first := by
  rcases hp.sibling with ⟨-, h0⟩ | ⟨y, hnext, hy⟩
  · exact Or.inl h0
  · obtain ⟨first, v, hfirst, hentry, -⟩ := h.firstKey_entry hy (Nat.ne_zero_of_lt hnext.2.1)
    refine Or.inr ⟨first, hfirst, ?_⟩
    calc k < y := hk y hnext.1 hnext.2.1
      _ ≤ first := hentry.2.1.2.1

theorem Rep.orSibling (other : Addr) : p.orSibling t.firstKey k other = some other := by
  unfold Page.orSibling
  rcases h.lt_sibling hp hk with h0 | ⟨first, hfirst, hlt⟩
  · rw [if_pos h0]
  · split_ifs
    · rfl
    · rw [hfirst, Option.map_some, if_neg (not_le.mpr hlt)]

end

theorem adjacent_of_inj (hp : p.Sound n) {f : ℕ → Option Addr}
    (hhas : ∀ x y, p.Has n x y → f x = some y)
    (hinj : ∀ x x' y, f x = some y → f x' = some y → x = x') : p.Adjacent n := by
  intro i hi heq
  have hkey : p.key i = p.key (i + 1) :=
    hinj _ _ _ (hhas _ _ ⟨i, by omega, rfl, heq⟩) (hhas _ _ ⟨i + 1, hi, rfl, rfl⟩)
  exact absurd hkey (hp.sorted i (i + 1) (Nat.lt_succ_self i) hi).ne

theorem Rep.node (h : Rep alloc t S σ) (ha : S.addr l lo = some a) (hheap : t.heap a = some p) :
    ∃ n, S.NodeOk σ l lo p n := by
  obtain ⟨p', n, hheap', hp⟩ := h.page l lo a ha
  obtain rfl : p' = p := Option.some.inj (hheap'.symm.trans hheap)
  exact ⟨n, hp⟩

theorem Rep.node_of_count (h : Rep alloc t S σ) (ha : S.addr l lo = some a)
    (hheap : t.heap a = some p) (hcount : p.count = some n) : S.NodeOk σ l lo p n := by
  obtain ⟨n', hp⟩ := h.node ha hheap
  obtain rfl : n' = n := Option.some.inj ((Page.count_sound hp.sound).symm.trans hcount)
  exact hp

theorem Rep.leftmost_eq_zero_iff (h : Rep alloc t S σ) (hp : S.NodeOk σ l lo p n) :
    p.leftmostPtr = 0 ↔ l = 0 := by
  refine ⟨fun h0 => ?_, hp.leaf⟩
  by_contra hl
  have hchild := hp.inner hl
  obtain ⟨l', rfl⟩ := Nat.exists_eq_succ_of_ne_zero hl
  exact h.ok.nonnull l' lo _ hchild h0

theorem Shape.NodeOk.fence_below (hp : S.NodeOk σ (l + 1) lo p n) (hpend : ∀ x, ¬ σ.pend (l + 1) x)
    {c : ℕ} (hc : c ∈ S.fences l) (hcov : Covers (S.fences (l + 1)) c lo) :
    c = lo ∨ ∃ i < n, p.key i = c := by
  obtain ⟨a, ha⟩ := hc
  by_cases hclo : c = lo
  · exact Or.inl hclo
  · obtain ⟨i, hi, hkey, -⟩ := (hp.has c a).mpr ⟨ha, hcov, fun _ => hclo, hpend c⟩
    exact Or.inr ⟨i, hi, hkey⟩

section

variable (h : Rep alloc t S σ)

include h

/-- **One step down**: `linear_search` on an internal page leads to the page of the level
below that covers the key. -/
theorem Rep.search_inner (hp : S.NodeOk σ (l + 1) lo p n) (hk : Covers (S.fences (l + 1)) k lo)
    (hpend : ∀ x, ¬ σ.pend (l + 1) x) : ∃ x a, S.addr l x = some a ∧ Covers (S.fences l) k x ∧
      p.linearSearch t.firstKey k = some a := by
  have hinj : ∀ x x' y, S.contents (l + 1) x = some y → S.contents (l + 1) x' = some y → x = x' :=
    fun x x' y hx hx' => (h.ok.inj l x l x' y hx hx').2
  have hpos : 0 < n := hp.pos (Or.inl (Nat.succ_ne_zero l))
  have hleftmost : S.addr l lo = some p.leftmostPtr := hp.inner (Nat.succ_ne_zero l)
  have hfirst := (hp.has _ _).mp ⟨0, hpos, rfl, rfl⟩
  have hne : p.leftmostPtr ≠ p.ptr 0 := by
    intro heq
    rw [heq] at hleftmost
    exact hfirst.2.2.1 (Nat.succ_ne_zero l) (hinj _ _ _ hfirst.1 hleftmost)
  obtain ⟨child, heq, hchild⟩ : ∃ child, p.linearSearch t.firstKey k = _ ∧ _ :=
    Page.search_inner hp.sound hpos (fun h0 => h.ok.nonnull l lo _ hleftmost h0)
      (adjacent_of_inj hp.sound (fun x y hxy => ((hp.has x y).mp hxy).1) hinj) hne k
  rw [heq, h.orSibling hp fun y => hk.lt_of_lt]
  rcases hchild with ⟨hall, rfl⟩ | ⟨m, hm, hle, hbehind, rfl⟩
  · refine ⟨lo, _, hleftmost, hk.refine ⟨_, hleftmost⟩ le_rfl hk.2.1 fun c hc hcov hck => ?_, rfl⟩
    rcases hp.fence_below hpend hc hcov with rfl | ⟨i, hi, rfl⟩
    · exact le_rfl
    · exact absurd (hall i hi) (not_lt.mpr hck)
  · have hentry := (hp.has _ _).mp ⟨m, hm, rfl, rfl⟩
    refine ⟨p.key m, _, hentry.1,
      hk.refine ⟨_, hentry.1⟩ hentry.2.1.2.1 hle fun c hc hcov hck => ?_, rfl⟩
    rcases hp.fence_below hpend hc hcov with rfl | ⟨i, hi, rfl⟩
    · exact hentry.2.1.2.1
    · by_contra hgt
      have hmi : m < i := by
        by_contra hge
        exact hgt (hp.sound.key_le (Nat.not_lt.mp hge) hm)
      exact absurd (hbehind i hmi hi) (not_lt.mpr hck)

/-- **The descent** from a page that covers the key stops on the target level, at the page
that covers the key. -/
theorem Rep.descend_from {stop : Page → Bool} {target : ℕ}
    (hstop : ∀ l lo p n, S.NodeOk σ l lo p n → (stop p = true ↔ l ≤ target))
    (hcomplete : σ.Complete (target + 1)) :
    ∀ d fuel lo a, d < fuel → S.addr (target + d) lo = some a →
      Covers (S.fences (target + d)) k lo →
      ∃ x a', S.addr target x = some a' ∧ Covers (S.fences target) k x ∧
        t.descend k stop fuel a = some a' := by
  intro d
  induction d with
  | zero =>
    intro fuel lo a hfuel ha hk
    obtain ⟨fuel, rfl⟩ := Nat.exists_eq_succ_of_ne_zero (Nat.ne_zero_of_lt hfuel)
    obtain ⟨p, n, hheap, hp⟩ := h.page _ lo a ha
    refine ⟨lo, a, ha, hk, ?_⟩
    rw [Tree.descend, hheap, Option.bind_some, if_pos ((hstop _ _ _ _ hp).mpr le_rfl)]
  | succ d ih =>
    intro fuel lo a hfuel ha hk
    obtain ⟨fuel, rfl⟩ := Nat.exists_eq_succ_of_ne_zero (Nat.ne_zero_of_lt hfuel)
    obtain ⟨p, n, hheap, hp⟩ := h.page _ lo a ha
    have hgo : ¬stop p = true := fun hs => by
      have := (hstop _ _ _ _ hp).mp hs
      omega
    obtain ⟨x, child, hchild, hx, heq⟩ :=
      h.search_inner hp hk fun x => (hcomplete _ (Nat.succ_le_succ (Nat.le_add_right ..)) x).1
    obtain ⟨x', a', ha', hx', hrest⟩ := ih fuel x child (by omega) hchild hx
    refine ⟨x', a', ha', hx', ?_⟩
    rw [Tree.descend, hheap, Option.bind_some, if_neg hgo, heq, Option.bind_some]
    exact hrest

theorem Rep.descend (htop : S.Top) (stop : Page → Bool) (target : ℕ)
    (hstop : ∀ l lo p n, S.NodeOk σ l lo p n → (stop p = true ↔ l ≤ target))
    (hcomplete : σ.Complete (target + 1)) (htarget : target ≤ S.top) (k : ℕ) :
    ∃ x a, S.addr target x = some a ∧ Covers (S.fences target) k x ∧
      t.descend k stop t.height t.root = some a := by
  have hd : target + (S.top - target) = S.top := by omega
  have hk : Covers (S.fences S.top) k 0 :=
    ⟨⟨_, h.root⟩, Nat.zero_le k, fun y hy _ => (htop y hy).le⟩
  rw [← hd] at hk
  refine h.descend_from hstop hcomplete (S.top - target) t.height 0 t.root ?_ ?_ hk
  · have := h.height_le
    omega
  · rw [hd]
    exact h.root

theorem Rep.next_pos : 0 < t.next := by
  obtain ⟨i, hi, -⟩ := h.used _ _ _ h.root
  omega

theorem Rep.descend_leaf (htop : S.Top) (hcomplete : σ.Complete 1) (k : ℕ) :
    ∃ x a, S.addr 0 x = some a ∧ Covers (S.fences 0) k x ∧
      t.descend k (fun p => p.leftmostPtr = 0) t.height t.root = some a :=
  h.descend htop _ 0 (fun l lo p n hp => by simpa using h.leftmost_eq_zero_iff hp) hcomplete
    S.top.zero_le k

theorem Rep.leafLoop_of_lt (ha : S.addr 0 lo = some a) (hk : k < lo) (fuel : ℕ) :
    t.leafLoop k (fuel + 1) a = some 0 := by
  obtain ⟨p, n, hheap, hp⟩ := h.page 0 lo a ha
  have habsent : ∀ i < n, p.key i ≠ k := fun i hi heq => by
    have hlo := ((hp.has _ _).mp ⟨i, hi, rfl, rfl⟩).2.1.2.1
    omega
  rw [Tree.leafLoop, hheap, Option.bind_some,
    Page.search_leaf_absent hp.sound (hp.leaf rfl) hp.stale habsent,
    h.orSibling hp fun y _ hy => hk.trans hy, Option.bind_some, if_pos rfl, ite_self]

/-- **`Search` on a tree in order**, whatever the values are: it returns the pointer of the
record with the key, if it is not ignored and is not the address of the sibling. -/
theorem Rep.search_finds (hcomplete : σ.Complete 1) (htop : S.Top) (k : ℕ) :
    ∃ lo a p n, S.addr 0 lo = some a ∧ Covers (S.fences 0) k lo ∧ t.heap a = some p ∧
      S.NodeOk σ 0 lo p n ∧ t.descend k (fun p => p.leftmostPtr = 0) t.height t.root = some a ∧
      ∃ r, t.search k = some r ∧ p.Finds k (fun i => i < n ∧ p.ptr i ≠ p.siblingPtr) r := by
  obtain ⟨lo, a, ha, hk, hdescend⟩ := h.descend_leaf htop hcomplete k
  obtain ⟨p, n, hheap, hp⟩ := h.page 0 lo a ha
  refine ⟨lo, a, p, n, ha, hk, hheap, hp, hdescend, ?_⟩
  obtain ⟨fuel, hfuel⟩ := Nat.exists_eq_succ_of_ne_zero h.next_pos.ne'
  obtain ⟨r, hret, hfinds⟩ := Page.leafRet_finds hp.sound hp.stale k
  rw [Tree.search, hdescend, Option.bind_some, hfuel, Tree.leafLoop, hheap, Option.bind_some,
    Page.linearSearch, if_pos (hp.leaf rfl), hret, Option.bind_some,
    h.orSibling hp fun y => hk.lt_of_lt]
  rcases hfinds with ⟨i, hi, hvalid, hkey, rfl⟩ | ⟨rfl, hnone⟩
  · rw [if_pos hvalid.1, Option.bind_some]
    by_cases hsib : p.ptr i = p.siblingPtr
    · -- the search goes on to the sibling, in front of which the key lies
      rw [if_pos hsib, if_neg hvalid.1]
      rcases hp.sibling with ⟨-, h0⟩ | ⟨y, hnext, hy⟩
      · exact absurd (hsib.trans h0) hvalid.1
      · have htwo : ∃ fuel', fuel = fuel' + 1 := by
          obtain ⟨i₁, hi₁, heq₁⟩ := h.used _ _ _ ha
          obtain ⟨i₂, hi₂, heq₂⟩ := h.used _ _ _ hy
          refine Nat.exists_eq_succ_of_ne_zero fun h0 => ?_
          have hsame : a = p.siblingPtr := by
            rw [← heq₁, ← heq₂, show i₁ = i₂ by omega]
          exact absurd (h.ok.inj _ _ _ _ _ ha (hsame ▸ hy)).2 hnext.2.1.ne
        obtain ⟨fuel', rfl⟩ := htwo
        rw [hsib, h.leafLoop_of_lt hy (hk.lt_of_lt hnext.1 hnext.2.1)]
        refine ⟨0, rfl, Or.inr ⟨rfl, fun j hj hvalid' hkey' => ?_⟩⟩
        obtain rfl := hp.sound.key_inj hj.1 hi (hkey'.trans hkey.symm)
        exact hj.2 hsib
    · rw [if_neg hsib]
      exact ⟨_, rfl, Or.inl ⟨i, ⟨hi, hsib⟩, hvalid, hkey, rfl⟩⟩
  · rw [if_neg (by simp), Option.bind_some, if_pos rfl, ite_self]
    exact ⟨0, rfl, Or.inr ⟨rfl, fun j hj hvalid hkey => hnone j hj.1 hvalid hkey⟩⟩

/-- **`Search` reads the map**, when its values are pairwise distinct and are not the
addresses of pages. -/
theorem Rep.search (htop : S.Top) (hcomplete : σ.Complete 0)
    (hdistinct : ∀ x x' y, S.map x = some y → S.map x' = some y → x = x')
    (hpages : ∀ x y l lo, S.map x = some y → S.addr l lo ≠ some y) (k : ℕ) :
    t.search k = some ((S.map k).getD 0) := by
  obtain ⟨lo, a, p, n, ha, hk, hheap, hp, -, r, hsearch, hfinds⟩ :=
    h.search_finds (hcomplete.mono (Nat.zero_le 1)) htop k
  rw [hsearch]
  rcases hfinds with ⟨i, hi, -, rfl, rfl⟩ | ⟨rfl, hnone⟩
  · have hmap : S.map (p.key i) = some (p.ptr i) := ((hp.has _ _).mp ⟨i, hi.1, rfl, rfl⟩).1
    rw [hmap]
    rfl
  · cases hmap : S.map k with
    | none => rfl
    | some q =>
      obtain ⟨i, hi, hkey, rfl⟩ :=
        (hp.has k q).mpr ⟨hmap, hk, fun h0 => absurd rfl h0, (hcomplete 0 le_rfl k).1⟩
      have hadjacent : p.Adjacent n :=
        adjacent_of_inj hp.sound (fun x y hxy => ((hp.has x y).mp hxy).1) hdistinct
      have hsib : p.ptr i ≠ p.siblingPtr := by
        rcases hp.sibling with ⟨-, h0⟩ | ⟨y, -, hy⟩
        · exact fun heq => hp.sound.ptr_ne i hi (heq.trans h0)
        · exact fun heq => hpages k _ _ _ hmap (heq ▸ hy)
      exact absurd hkey (hnone i ⟨hi, hsib⟩ (hp.sound.valid hadjacent hi))

end

end Search

/-- An allocator for the tests: pages have odd addresses. -/
def oddPages (i : ℕ) : Addr := 2 * i + 1

theorem oddPages_injective : Function.Injective oddPages := fun i j heq => by
  have heq' : 2 * i + 1 = 2 * j + 1 := heq
  omega

theorem oddPages_ne_zero (i : ℕ) : oddPages i ≠ 0 := Nat.succ_ne_zero _

theorem oddPages_ne_even {y : ℕ} (hy : y % 2 = 0) (i : ℕ) : oddPages i ≠ y := fun heq => by
  have heq' : 2 * i + 1 = y := heq
  omega

end McfKv.Btree
