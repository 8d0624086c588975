import McfKv.Index.FairSearch

/-!
# The FAIR split, store by store (`multi-cuckoo-index/ff_btreee.h`)

The overflow branch of `Page::store` fills a new page that nothing points to, links it
with one store to `hdr.sibling_ptr`, and then cuts the old page down with three more
stores. `splitStores` is the list of these stores in source order, and `splitFrozen` is
the tree after any initial segment of the list.

`StoreCall` is the set of calls of `store` that one `Insert` makes: on a leaf, and on a
page of each level that a split below has reached. All of them are in tail position,
which is `StoreCall.insert_eq`. The tree at such a call is in order but for one page that
its parent does not know (`StoreCall.located`).

`searches_splitFrozen` is the result: a search reads the same at every store of every
split. Before the new page is linked the pages of the tree are as they were; afterwards
the shape has one page more, and `FairSearch` applies.
-/

namespace McfKv.Btree

open Fence

/-! ## Stores to the fields of a page -/

namespace Page

/-- A store to a field of a page. -/
inductive Field where
  | leftmostPtr (q : Addr)
  | siblingPtr (q : Addr)
  | switchCounter (c : ℕ)
  | lastIndex (i : ℤ)
  | record (s : Store)

/-- Perform one store. -/
def set (p : Page) : Field → Page
  | .leftmostPtr q => { p with leftmostPtr := q }
  | .siblingPtr q => { p with siblingPtr := q }
  | .switchCounter c => { p with switchCounter := c }
  | .lastIndex i => { p with lastIndex := i }
  | .record s => p.write s

/-- Perform a list of stores. -/
def setAll (p : Page) (fields : List Field) : Page := fields.foldl set p

theorem setAll_append (p : Page) (fs fs' : List Field) :
    p.setAll (fs ++ fs') = (p.setAll fs).setAll fs' := List.foldl_append

theorem setAll_records (stores : List Store) :
    ∀ p : Page, p.setAll (stores.map .record) = p.writeAll stores := by
  induction stores with
  | nil => exact fun _ => rfl
  | cons s stores ih => exact fun p => ih (p.write s)

theorem writeAll_leftmostPtr (stores : List Store) :
    ∀ p : Page, (p.writeAll stores).leftmostPtr = p.leftmostPtr := by
  induction stores with
  | nil => exact fun _ => rfl
  | cons s stores ih =>
    intro p
    refine (ih (p.write s)).trans ?_
    cases s <;> rfl

/-- The stores of `insert_key`, those to the header included. -/
def insertKeyFields (p : Page) (k : ℕ) (q : Addr) (n : ℕ) : List Field :=
  let counter := if p.isForward then [] else [.switchCounter ((p.switchCounter + 1) % 256)]
  let stores := (p.setAll counter).recordStores k q n
  counter ++ stores.1.map .record ++ if stores.2 = none then [.lastIndex n] else []

theorem setAll_insertKeyFields (p : Page) (k : ℕ) (q : Addr) (n : ℕ) :
    p.setAll (p.insertKeyFields k q n) = (p.insertKey k q n).page := by
  have hcounter : p.setAll (if p.isForward then [] else
      [.switchCounter ((p.switchCounter + 1) % 256)]) =
        if p.isForward then p else { p with switchCounter := (p.switchCounter + 1) % 256 } := by
    split_ifs <;> rfl
  unfold insertKeyFields insertKey
  simp only [setAll_append, setAll_records, hcounter]
  generalize (if p.isForward then p else _) = p'
  cases hstores : (p'.recordStores k q n).2 with
  | none => rfl
  | some old => rfl

theorem insertKey_leftmostPtr (p : Page) (k : ℕ) (q : Addr) (n : ℕ) :
    (p.insertKey k q n).page.leftmostPtr = p.leftmostPtr := by
  have hforward : (if p.isForward then p else
      { p with switchCounter := (p.switchCounter + 1) % 256 }).leftmostPtr = p.leftmostPtr := by
    split_ifs <;> rfl
  unfold insertKey
  dsimp only
  generalize (if p.isForward then p else _) = p' at hforward ⊢
  split
  · exact (writeAll_leftmostPtr _ p').trans hforward
  · exact (writeAll_leftmostPtr _ p').trans hforward

end Page

/-! ## The stores of a split -/

/-- The stores that move records into the new page. -/
def migrateFields (p : Page) : List ℕ → Page → ℕ → List Page.Field
  | [], _, _ => []
  | i :: is, sibling, cnt =>
    let moved := sibling.insertKey (p.key i) (p.ptr i) cnt
    sibling.insertKeyFields (p.key i) (p.ptr i) cnt ++
      migrateFields p is moved.page moved.numEntries

/-- The stores to the new page. -/
def rightFields (p : Page) (n : ℕ) : List Page.Field :=
  (if p.leftmostPtr = 0 then
    migrateFields p (List.range' (n / 2) (n - n / 2)) (Page.new p.level) 0
  else
    migrateFields p (List.range' (n / 2 + 1) (n - (n / 2 + 1))) (Page.new p.level) 0 ++
      [.leftmostPtr (p.ptr (n / 2))]) ++
  [.siblingPtr p.siblingPtr]

/-- The stores to the old page; `b` is the address of the new one. -/
def leftFields (p : Page) (n : ℕ) (b : Addr) : List Page.Field :=
  [.siblingPtr b, .switchCounter ((p.switchCounter + if p.isForward then 2 else 1) % 256),
    .record (.ptr (n / 2) 0), .lastIndex (((n / 2 : ℕ) : ℤ) - 1)]

/-- The stores of the overflow branch of `Page::store` on the page at `a`, in source order,
from the constructor of the new page to the insertion of the key. -/
def splitStores (p : Page) (n : ℕ) (a b : Addr) : List (Addr × Page.Field) :=
  (rightFields p n).map (b, ·) ++ (leftFields p n b).map (a, ·)

theorem setAll_migrateFields (p : Page) (is : List ℕ) :
    ∀ acc : Page.Inserted, acc.page.setAll (migrateFields p is acc.page acc.numEntries) =
      (is.foldl (fun acc i => acc.page.insertKey (p.key i) (p.ptr i) acc.numEntries) acc).page := by
  induction is with
  | nil => exact fun _ => rfl
  | cons i is ih =>
    intro acc
    rw [migrateFields, Page.setAll_append, Page.setAll_insertKeyFields]
    exact ih _

theorem migrate_leftmostPtr (p : Page) (is : List ℕ) : ∀ acc : Page.Inserted,
    (is.foldl (fun acc i => acc.page.insertKey (p.key i) (p.ptr i) acc.numEntries)
      acc).page.leftmostPtr = acc.page.leftmostPtr := by
  induction is with
  | nil => exact fun _ => rfl
  | cons i is ih => exact fun acc => (ih _).trans (Page.insertKey_leftmostPtr ..)

theorem setAll_rightFields (p : Page) (n : ℕ) :
    (Page.new p.level).setAll (rightFields p n) = (rightHalf p n).page := by
  have hmoved : ∀ is, (Page.new p.level).setAll (migrateFields p is (Page.new p.level) 0) = _ :=
    fun is => setAll_migrateFields p is ⟨Page.new p.level, 0, 0⟩
  unfold rightFields rightHalf migrate
  by_cases hleaf : p.leftmostPtr = 0
  · simp only [if_pos hleaf]
    rw [Page.setAll_append, hmoved]
    have hleftmost :=
      migrate_leftmostPtr p (List.range' (n / 2) (n - n / 2)) ⟨Page.new p.level, 0, 0⟩
    generalize (List.foldl _ _ (List.range' (n / 2) (n - n / 2))) = moved at hleftmost ⊢
    dsimp only [Page.setAll, List.foldl_cons, List.foldl_nil, Page.set]
    rw [show moved.page.leftmostPtr = 0 from hleftmost]
  · simp only [if_neg hleaf]
    rw [Page.setAll_append, Page.setAll_append, hmoved]
    rfl

theorem setAll_leftFields (p : Page) (n : ℕ) (b : Addr) :
    p.setAll (leftFields p n b) = leftHalf p n b := rfl

theorem setAll_leftFields_key (p : Page) (n : ℕ) (b : Addr) :
    ∀ i, (p.setAll ((leftFields p n b).take i)).key = p.key
  | 0 | 1 | 2 | 3 => rfl
  | i + 4 => by rw [List.take_of_length_le (by simp [leftFields])]; rfl

namespace Tree

/-- Perform a store to a field of a page in the heap. -/
def setField (t : Tree) (s : Addr × Page.Field) : Tree :=
  { t with heap := Function.update t.heap s.1 ((t.heap s.1).map (Page.set · s.2)) }

/-- Perform a list of stores. -/
def setFields (t : Tree) (stores : List (Addr × Page.Field)) : Tree := stores.foldl setField t

/-- **The tree frozen in the middle of a split** of the page `p` at `a`: the new page has
been constructed, and then `j` stores have been made. -/
def splitFrozen (alloc : ℕ → Addr) (t : Tree) (a : Addr) (p : Page) (n j : ℕ) : Tree :=
  setFields { t.put (alloc t.next) (Page.new p.level) with next := t.next + 1 }
    ((splitStores p n a (alloc t.next)).take j)

theorem setFields_append (t : Tree) (ss ss' : List (Addr × Page.Field)) :
    t.setFields (ss ++ ss') = (t.setFields ss).setFields ss' := List.foldl_append

theorem setFields_page (a : Addr) (fields : List Page.Field) :
    ∀ (t : Tree) (p : Page), t.heap a = some p →
      t.setFields (fields.map (a, ·)) = t.put a (p.setAll fields) := by
  induction fields with
  | nil =>
    intro t p hp
    change t = { t with heap := Function.update t.heap a (some p) }
    rw [← hp, Function.update_eq_self]
  | cons f fields ih =>
    intro t p hp
    have hset : t.setField (a, f) = t.put a (p.set f) := by
      simp only [setField, put, hp, Option.map_some]
    change (t.setField (a, f)).setFields (fields.map (a, ·)) = _
    rw [hset, ih _ _ (put_heap_self ..)]
    simp only [put, Function.update_idem]
    rfl

variable {alloc : ℕ → Addr} {t : Tree} {a : Addr} {p : Page} {n : ℕ}

section

variable (hp : t.heap a = some p) (hab : a ≠ alloc t.next)

include hp hab

theorem splitFrozen_eq (j : ℕ) : t.splitFrozen alloc a p n j =
      put { t.put (alloc t.next) ((Page.new p.level).setAll ((rightFields p n).take j)) with
          next := t.next + 1 } a
        (p.setAll ((leftFields p n (alloc t.next)).take (j - (rightFields p n).length))) := by
  obtain ⟨t₁, ht₁⟩ :
      ∃ t₁, t₁ = { t.put (alloc t.next) (Page.new p.level) with next := t.next + 1 } := ⟨_, rfl⟩
  have hnew : t₁.heap (alloc t.next) = some (Page.new p.level) := by
    rw [ht₁]
    exact put_heap_self ..
  have hold : t₁.heap a = some p := by
    rw [ht₁]
    exact (put_heap_of_ne _ hab _).trans hp
  unfold splitFrozen
  rw [← ht₁, splitStores, List.take_append, List.length_map, ← List.map_take, ← List.map_take,
    setFields_append, setFields_page _ _ _ _ hnew,
    setFields_page _ _ _ _ ((put_heap_of_ne _ hab _).trans hold), ht₁]
  simp only [put, Function.update_idem]

/-- **A frozen split**: the new page is not linked yet and the rest of the heap is as it
was, or the new page is complete and the old one has been cut down some of the way. -/
theorem splitFrozen_cases (j : ℕ) :
    (∀ c, c ≠ alloc t.next → (t.splitFrozen alloc a p n j).heap c = t.heap c) ∨ ∃ i, 0 < i ∧
      (t.splitFrozen alloc a p n j).heap (alloc t.next) = some (rightHalf p n).page ∧
      (t.splitFrozen alloc a p n j).heap a =
        some (p.setAll ((leftFields p n (alloc t.next)).take i)) ∧
      ∀ c, c ≠ a → c ≠ alloc t.next → (t.splitFrozen alloc a p n j).heap c = t.heap c := by
  rw [splitFrozen_eq hp hab]
  rcases Nat.eq_zero_or_pos (j - (rightFields p n).length) with h0 | hpos
  · refine Or.inl fun c hc => ?_
    rw [h0]
    by_cases hca : c = a
    · rw [hca, put_heap_self, hp]
      rfl
    · exact (put_heap_of_ne _ hca _).trans (put_heap_of_ne _ hc _)
  · refine Or.inr ⟨_, hpos, ?_, put_heap_self .., fun c hca hc => ?_⟩
    · have hall : (rightFields p n).take j = rightFields p n :=
        List.take_of_length_le (by omega)
      rw [← setAll_rightFields, put_heap_of_ne _ hab.symm, hall]
      exact put_heap_self ..
    · exact (put_heap_of_ne _ hca _).trans (put_heap_of_ne _ hc _)

/-- After all stores the tree has the two halves of the page, as `split` takes them. -/
theorem splitFrozen_all : t.splitFrozen alloc a p n (splitStores p n a (alloc t.next)).length =
    { (t.put (alloc t.next) (rightHalf p n).page).put a (leftHalf p n (alloc t.next)) with
      next := t.next + 1 } := by
  have hright : (rightFields p n).length ≤ (splitStores p n a (alloc t.next)).length := by
    simp [splitStores]
  have hleft : (leftFields p n (alloc t.next)).length ≤
      (splitStores p n a (alloc t.next)).length - (rightFields p n).length := by
    simp [splitStores]
  rw [splitFrozen_eq hp hab, List.take_of_length_le hright, List.take_of_length_le hleft,
    setAll_rightFields, setAll_leftFields]
  rfl

end

/-- Twenty-nine insertions fill the root, and its halves are as wide as a split should make
them. -/
theorem exists_fullRoot :
    ∃ t p, (new (· + 1)).insertAll (· + 1) ((List.range 29).map fun i => (i, i + 100)) = some t ∧
      t.heap 1 = some p ∧ t.next = 1 ∧ p.siblingPtr = 0 ∧ p.count = some 29 ∧
      t.descend 29 (fun p => p.leftmostPtr = 0) t.height t.root = some 1 ∧
      (leftHalf p 29 2).count = some 14 ∧ (rightHalf p 29).page.count = some 15 ∧
      (List.range 14).map (leftHalf p 29 2).key ++ (List.range 15).map (rightHalf p 29).page.key =
        List.range 29 := by
  have hrun : ((new (· + 1)).insertAll (· + 1) ((List.range 29).map fun i => (i, i + 100))).bind
      (fun t => (t.heap 1).map fun p => ((t.next, p.siblingPtr, p.count,
        t.descend 29 (fun p => p.leftmostPtr = 0) t.height t.root),
        ((leftHalf p 29 2).count, (rightHalf p 29).page.count,
          (List.range 14).map (leftHalf p 29 2).key ++
            (List.range 15).map (rightHalf p 29).page.key))) =
      some ((1, 0, some 29, some 1), (some 14, some 15, List.range 29)) := by decide +kernel
  obtain ⟨t, ht, hpage⟩ := Option.bind_eq_some_iff.mp hrun
  obtain ⟨p, hp, hfacts⟩ := Option.map_eq_some_iff.mp hpage
  simp only [Prod.mk.injEq, and_assoc] at hfacts
  exact ⟨t, p, ht, hp, hfacts⟩

/-- The stores of a split of the full root leave its first fourteen keys in place, and the others
on the new page. -/
theorem splitFrozen_all_fullRoot :
    ∃ (t : Tree) (p left right : Page), t.heap 1 = some p ∧ p.count = some 29 ∧
      (t.splitFrozen (· + 1) 1 p 29 (splitStores p 29 1 2).length).heap 1 = some left ∧
      (t.splitFrozen (· + 1) 1 p 29 (splitStores p 29 1 2).length).heap 2 = some right ∧
      left.count = some 14 ∧ left.siblingPtr = 2 ∧ right.count = some 15 ∧
      (List.range 14).map left.key ++ (List.range 15).map right.key = List.range 29 := by
  obtain ⟨t, p, -, hp, hnext, -, hcount, -, hleft, hright, hkeys⟩ := exists_fullRoot
  have hall := @splitFrozen_all (· + 1) t 1 p 29 hp (by rw [hnext]; decide)
  rw [hnext] at hall
  refine ⟨t, p, leftHalf p 29 2, (rightHalf p 29).page, hp, hcount, ?_, ?_, hleft, rfl, hright,
    hkeys⟩
  · rw [hall]
    exact put_heap_self (t.put 2 (rightHalf p 29).page) 1 (leftHalf p 29 2)
  · rw [hall]
    change ((t.put 2 (rightHalf p 29).page).put 1 (leftHalf p 29 2)).heap 2 = _
    rw [put_heap_of_ne _ (show (2 : Addr) ≠ 1 by decide), put_heap_self]

end Tree

/-- **The old page brings a search forward at every store** from the one that links the new
page on. -/
theorem Shape.Linked.directs_frozen {S S' : Shape} {firstKey firstKey' : Addr → Option ℕ}
    {l lo n : ℕ} {p : Page} {b : Addr} (h : Shape.Linked S S' firstKey firstKey' l lo p n b)
    (hS : S'.Apart) {i : ℕ} (hi : 0 < i) :
    S'.Directs firstKey' l lo (p.setAll ((leftFields p n b).take i)) := by
  have hforward := h.guided.live.forward
  have hleft := h.guided_leftHalf
  match i with
  | 0 => exact absurd hi (lt_irrefl 0)
  | 1 => exact (h.guided_full (c := p.switchCounter) hforward).directs hS
  | 2 =>
    refine (h.guided_full ?_).directs hS
    exact hleft.live.forward
  | 3 =>
    -- `last_index` is still that of the full page
    exact (hleft.directs hS).lastIndex hleft.live.forward p.lastIndex
  | i + 4 =>
    rw [List.take_of_length_le (by simp [leftFields]), setAll_leftFields]
    exact hleft.directs hS

/-! ## The calls of `store` -/

section Calls

variable (alloc : ℕ → Addr)

/-- `store` on the page at `a` takes its overflow branch: the page `p` does not pass the key
on to its sibling and has no room for it. A leaf writes to `*upd_ptr`. -/
structure Tree.Overflows (t : Tree) (a : Addr) (k : ℕ) (hasUpd : Bool) (p : Page) (n : ℕ) :
    Prop where
  page : t.heap a = some p
  here : p.siblingPtr ≠ 0 → ∃ first, t.firstKey p.siblingPtr = some first ∧ ¬first < k
  count : p.count = some n
  full : ¬n < cardinality - 1
  upd : p.leftmostPtr = 0 → hasUpd = true

/-- The tree when the overflow branch calls `InsertInternal`. -/
def Tree.afterSplit (t : Tree) (a : Addr) (p : Page) (n k : ℕ) (q : Addr) : Tree :=
  let s := split p n (alloc t.next) k q
  { (t.put (alloc t.next) s.right).put a s.left with next := t.next + 1 }

/-- **The calls of `Page::store`** that `Insert(k₀, q₀)` makes on the tree `t₀`, each with the
tree at the time of the call and its arguments. -/
inductive StoreCall (t₀ : Tree) (k₀ : ℕ) (q₀ : Addr) : Tree → Addr → ℕ → Addr → Bool → Prop
  | insert {leaf : Addr} :
      t₀.descend k₀ (fun p => p.leftmostPtr = 0) t₀.height t₀.root = some leaf →
      StoreCall t₀ k₀ q₀ t₀ leaf k₀ q₀ true
  | sibling {t : Tree} {a : Addr} {k : ℕ} {q : Addr} {hasUpd : Bool} {p : Page} {first : ℕ} :
      StoreCall t₀ k₀ q₀ t a k q hasUpd → t.heap a = some p → p.siblingPtr ≠ 0 →
      t.firstKey p.siblingPtr = some first → first < k →
      StoreCall t₀ k₀ q₀ t p.siblingPtr k q false
  | internal {t : Tree} {a : Addr} {k : ℕ} {q : Addr} {hasUpd : Bool} {p r : Page} {n : ℕ}
      {a' : Addr} :
      StoreCall t₀ k₀ q₀ t a k q hasUpd → t.Overflows a k hasUpd p n → t.root ≠ a →
      (t.afterSplit alloc a p n k q).heap t.root = some r → ¬r.level < p.level + 1 →
      (t.afterSplit alloc a p n k q).descend (split p n (alloc t.next) k q).splitKey
        (fun p' => p'.level ≤ p.level + 1) t.height t.root = some a' →
      StoreCall t₀ k₀ q₀ (t.afterSplit alloc a p n k q) a'
        (split p n (alloc t.next) k q).splitKey (alloc t.next) true

end Calls

section Calls

variable {alloc : ℕ → Addr} {t₀ t : Tree} {k₀ k : ℕ} {q₀ q : Addr} {a : Addr} {hasUpd : Bool}
  {p : Page} {n : ℕ}

theorem Tree.Overflows.store_eq (h : t.Overflows a k hasUpd p n) (hroot : t.root ≠ a)
    (insertInternal : Tree → ℕ → Addr → ℕ → Option Tree) (fuel : ℕ) :
    (store alloc insertInternal (fuel + 1) t a k q hasUpd).map Prod.fst =
      insertInternal (t.afterSplit alloc a p n k q) (split p n (alloc t.next) k q).splitKey
        (alloc t.next) (p.level + 1) := by
  have hhere : store alloc insertInternal (fuel + 1) t a k q hasUpd =
      storeHere alloc insertInternal t a k q hasUpd := by
    rw [store, h.page, Option.bind_some]
    split_ifs with h0
    · rfl
    · obtain ⟨first, hfirst, hle⟩ := h.here h0
      rw [hfirst, Option.bind_some, if_neg hle]
  have hupd : ¬(p.leftmostPtr = 0 ∧ hasUpd = false) := by
    rintro ⟨hleaf, hno⟩
    exact absurd ((h.upd hleaf).symm.trans hno) (by simp)
  rw [hhere, storeHere, h.page, Option.bind_some, h.count, Option.bind_some, if_neg h.full,
    if_neg hupd]
  dsimp only
  rw [if_neg hroot, Option.map_map]
  exact Option.map_id'

/-- **Every call is in tail position**: the tree that `Insert` leaves is the tree that the
call leaves. -/
theorem StoreCall.insert_eq (h : StoreCall alloc t₀ k₀ q₀ t a k q hasUpd) :
    ∃ fuel depth, (t₀.insert alloc k₀ q₀).map Prod.fst =
      (store alloc (insertInternal alloc depth) fuel t a k q hasUpd).map Prod.fst := by
  induction h with
  | insert hdescend =>
    refine ⟨t₀.next, t₀.height, ?_⟩
    rw [Tree.insert, hdescend, Option.bind_some]
  | @sibling t a k q hasUpd p first _ hp hne hfirst hlt ih =>
    obtain ⟨fuel, depth, heq⟩ := ih
    cases fuel with
    | zero => exact ⟨0, depth, heq⟩
    | succ fuel =>
      refine ⟨fuel, depth, heq.trans ?_⟩
      rw [store, hp, Option.bind_some, if_neg hne, hfirst, Option.bind_some, if_pos hlt]
  | @internal t a k q hasUpd p r n a' _ hover hroot hr hlevel hdescend ih =>
    obtain ⟨fuel, depth, heq⟩ := ih
    cases fuel with
    | zero => exact ⟨0, depth, heq⟩
    | succ fuel =>
      rw [hover.store_eq hroot] at heq
      cases depth with
      | zero => exact ⟨0, 0, heq⟩
      | succ depth =>
        refine ⟨(t.afterSplit alloc a p n k q).next, depth, heq.trans ?_⟩
        rw [insertInternal, show (t.afterSplit alloc a p n k q).root = t.root from rfl, hr,
          Option.bind_some, if_neg hlevel]
        exact congrArg (Option.bind · _) hdescend

/-- **The tree at a call** is in order, but for the page that the call is to make known to
its parent. -/
structure Located (alloc : ℕ → Addr) (m₀ m : ℕ → Option Addr) (t : Tree) (a : Addr) (k : ℕ)
    (q : Addr) (S : Shape) (σ σ' : Slack) (l lo : ℕ) : Prop where
  rep : Rep alloc t S σ
  removals : ¬ σ'.removals
  top : S.Top
  addr : S.addr l lo = some a
  covers : Covers (S.fences l) k lo
  lacks : S.Lacks σ σ' l k q m
  nonnull : q ≠ 0
  map : S.map = m₀ ∨ S.map = m

theorem Located.page {m₀ m : ℕ → Option Addr} {S : Shape} {σ σ' : Slack} {l lo : ℕ}
    (h : Located alloc m₀ m t a k q S σ σ' l lo) (hover : t.Overflows a k hasUpd p n) :
    S.NodeOk σ l lo p n ∧ n = cardinality - 1 := by
  have hnode := h.rep.node_of_count h.addr hover.page hover.count
  exact ⟨hnode, le_antisymm hnode.sound.le (not_lt.mp hover.full)⟩

/-- **Every call is located**, by induction on the calls: a split leaves the new page
pending one level further up. -/
theorem StoreCall.located (halloc : Function.Injective alloc) (hnull : ∀ i, alloc i ≠ 0)
    {S₀ : Shape} (h₀ : Rep alloc t₀ S₀ .tight) (htop : S₀.Top) (hq₀ : q₀ ≠ 0)
    (h : StoreCall alloc t₀ k₀ q₀ t a k q hasUpd) : ∃ S σ σ' l lo,
      Located alloc S₀.map (Function.update S₀.map k₀ (some q₀)) t a k q S σ σ' l lo := by
  induction h with
  | @insert leaf hdescend =>
    obtain ⟨lo, a, ha, hk, heq⟩ := h₀.descend_leaf htop (Slack.complete_tight 1) k₀
    obtain rfl : a = leaf := Option.some.inj (heq.symm.trans hdescend)
    exact ⟨S₀, _, _, 0, lo, h₀, id, htop, ha, hk,
      Shape.lacks_leaf S₀ (Slack.complete_tight 0) k₀ q₀, hq₀, Or.inl rfl⟩
  | @sibling t a k q hasUpd p first _ hp hne hfirst hlt ih =>
    -- a page that covers the key does not pass it on
    obtain ⟨S, σ, σ', l, lo, hloc⟩ := ih
    obtain ⟨n', hnode⟩ := hloc.rep.node hloc.addr hp
    obtain ⟨first', hfirst', hlt'⟩ :=
      (hloc.rep.lt_sibling hnode fun y => hloc.covers.lt_of_lt).resolve_left hne
    obtain rfl : first' = first := Option.some.inj (hfirst'.symm.trans hfirst)
    exact absurd hlt (Nat.lt_asymm hlt')
  | @internal t a k q hasUpd p r n a' _ hover hroot hr hlevel hdescend ih =>
    obtain ⟨S, σ, σ', l, lo, hloc⟩ := ih
    obtain ⟨hnode, hn⟩ := hloc.page hover
    obtain ⟨nl, nr, hs⟩ := split_spec hnode.sound hn hloc.nonnull
      (hloc.rep.inner_key_ne hloc.lacks hnode) (alloc t.next)
    have hrep := hloc.rep.splitHere halloc hnull hloc.lacks hloc.addr hloc.covers hnode hs
    have hl : l < S.top := hloc.rep.lt_top hloc.top hloc.addr hroot
    have htop' : (S.withMap (Function.update S₀.map k₀ (some q₀))).Top := hloc.top
    obtain ⟨lo', c, hc, hk, heq⟩ :=
      hrep.descend (htop'.cut hl _ _) (fun p' => p'.level ≤ p.level + 1) (l + 1)
        (fun l' lo' p' n' hp' => by simp [hp'.level, hnode.level])
        ((hloc.lacks.complete.mono (by omega)).lacking _) hl
        (split p n (alloc t.next) k q).splitKey
    obtain rfl : c = a' := Option.some.inj (heq.symm.trans hdescend)
    exact ⟨_, _, _, l + 1, lo', hrep, hloc.removals, htop'.cut hl _ _, hc, hk,
      Shape.lacks_inner Shape.cut_addr_self (hloc.lacks.complete.mono (Nat.le_succ l)),
      hnull _, Or.inr rfl⟩

end Calls

/-! ## Searches during a split -/

/-- What `pmalloc` promises about the values of a map: different keys have different values,
and no value is one of the first pages. -/
structure Promised (alloc : ℕ → Addr) (m : ℕ → Option Addr) (pages : ℕ) : Prop where
  distinct : ∀ x x' y, m x = some y → m x' = some y → x = x'
  notPage : ∀ x y, m x = some y → ∀ i < pages, alloc i ≠ y

/-- A tree in order can be navigated in the middle of the split of any of its pages. -/
theorem Rep.navigable_splitFrozen {alloc : ℕ → Addr} {t : Tree} {S : Shape}
    {σ : Slack} {l lo n : ℕ} {a : Addr} {p : Page} (h : Rep alloc t S σ) (hforward : ¬ σ.removals)
    (halloc : Function.Injective alloc) (hnull : ∀ i, alloc i ≠ 0)
    (hm : Promised alloc S.map (t.next + 1)) (ha : S.addr l lo = some a)
    (hpa : t.heap a = some p) (hp : S.NodeOk σ l lo p n) (hn : n = cardinality - 1) (j : ℕ) :
    Navigable t S ∧ ∃ S', S'.map = S.map ∧ Navigable (t.splitFrozen alloc a p n j) S' := by
  have hfresh := h.fresh halloc (le_refl t.next)
  have hab : a ≠ alloc t.next := fun heq => hfresh l lo (heq ▸ ha)
  have hvalue : ∀ x, S.map x ≠ some (alloc t.next) :=
    fun x hx => hm.notPage x _ hx t.next (Nat.lt_succ_self _) rfl
  have hS : S.Apart := by
    refine h.apart hm.distinct fun x y l lo hx hy => ?_
    obtain ⟨i, hi, heq⟩ := h.used l lo y hy
    exact hm.notPage x y hx i (Nat.lt_succ_of_lt hi) heq
  have hroot : (t.splitFrozen alloc a p n j).root = t.root := by
    rw [Tree.splitFrozen_eq hpa hab]
    rfl
  refine ⟨h.navigable hforward hS rfl fun _ _ _ _ => rfl, ?_⟩
  rcases Tree.splitFrozen_cases hpa hab j with hheap | ⟨i, hi, hb, ha', hheap⟩
  · refine ⟨S, rfl, h.navigable hforward hS hroot fun l lo c hc => hheap c fun heq => ?_⟩
    exact hfresh l lo (heq ▸ hc)
  · refine ⟨S.cut l (p.key (n / 2)) (alloc t.next), rfl,
      h.navigable_linked hforward hS ha hpa hp hn (hnull _) hfresh hvalue hroot hheap hb ha' ?_ ?_⟩
    · rw [setAll_leftFields_key]
    · intro hlinked
      exact hlinked.directs_frozen (hS.cut hfresh (hnull _) hvalue) hi

/-- **A FAIR split does not disturb a search.** On every tree built by insertions, in every
call of `store` that a further insertion makes, on every page on which the call takes the
overflow branch, and after any number of its stores, `Search` returns for every key what
it returned before the split. -/
theorem searches_splitFrozen (alloc : ℕ → Addr) (halloc : Function.Injective alloc)
    (hnull : ∀ i, alloc i ≠ 0) (ops : List (ℕ × Addr)) (hops : ∀ op ∈ ops, op.2 ≠ 0) {t₀ : Tree}
    (ht₀ : (Tree.new alloc).insertAll alloc ops = some t₀) {k₀ : ℕ} {q₀ : Addr} (hq₀ : q₀ ≠ 0)
    {t : Tree} {a : Addr} {k : ℕ} {q : Addr} {hasUpd : Bool} {p : Page} {n : ℕ}
    (hcall : StoreCall alloc t₀ k₀ q₀ t a k q hasUpd) (hover : t.Overflows a k hasUpd p n)
    (hbefore : Promised alloc (mapOf ops) (t.next + 1))
    (hafter : Promised alloc (mapOf (ops ++ [(k₀, q₀)])) (t.next + 1)) (j x : ℕ) :
    ∃ r, ∀ r', (t.Searches x r' ↔ r' = r) ∧
      ((t.splitFrozen alloc a p n j).Searches x r' ↔ r' = r) := by
  obtain ⟨t', S₀, heq, h₀, htop, hmap⟩ :=
    Rep.insertAll halloc hnull ops _ _ (Rep.new hnull).1 (Rep.new hnull).2 hops
  obtain rfl : t' = t₀ := Option.some.inj (heq.symm.trans ht₀)
  have hmap₀ : S₀.map = mapOf ops := hmap
  have hmap₁ : Function.update S₀.map k₀ (some q₀) = mapOf (ops ++ [(k₀, q₀)]) := by
    rw [hmap₀, mapOf, mapOf, mapAfter, mapAfter, List.foldl_append]
    rfl
  obtain ⟨S, σ, σ', l, lo, hloc⟩ := hcall.located halloc hnull h₀ htop hq₀
  obtain ⟨hnode, hn⟩ := hloc.page hover
  have hpromised : Promised alloc S.map (t.next + 1) := by
    rcases hloc.map with heq | heq
    · rw [heq, hmap₀]
      exact hbefore
    · rw [heq, hmap₁]
      exact hafter
  obtain ⟨hnav, S', hmap', hnav'⟩ :=
    hloc.rep.navigable_splitFrozen (hloc.removals ∘ hloc.lacks.removals.mp) halloc hnull hpromised
      hloc.addr hover.page hnode hn j
  refine ⟨(S.map x).getD 0, fun r' => ⟨⟨fun hr => hr.unique (hnav.searches x), ?_⟩,
    ⟨fun hr => ?_, ?_⟩⟩⟩
  · rintro rfl
    exact hnav.searches x
  · exact hr.unique (hmap' ▸ hnav'.searches x)
  · rintro rfl
    exact hmap' ▸ hnav'.searches x

theorem promised_range (n : ℕ) :
    Promised (· + 1) (mapOf ((List.range n).map fun i => (i, i + 100))) 2 where
  distinct x x' y hx hx' := by
    rw [mapOf_range] at hx hx'
    split_ifs at hx hx'
    have hy : x + 100 = x' + 100 := Option.some.inj (hx.trans hx'.symm)
    exact Nat.add_right_cancel hy
  notPage x y hx i hi := by
    rw [mapOf_range] at hx
    split_ifs at hx
    have hy : x + 100 = y := Option.some.inj hx
    show i + 1 ≠ y
    omega

/-- The thirtieth insertion splits the root; the tree is frozen when the pointer in the
middle of the old page has just become null. A search finds what `Tree.search` found before. -/
theorem searches_splitFrozen_thirtieth :
    ∃ t p,
      (Tree.new (· + 1)).insertAll (· + 1) ((List.range 29).map fun i => (i, i + 100)) = some t ∧
      t.Overflows 1 29 true p 29 ∧ t.search 20 = some 120 ∧
      ∀ r', (t.Searches 20 r' ↔ r' = 120) ∧
        ((t.splitFrozen (· + 1) 1 p 29 64).Searches 20 r' ↔ r' = 120) := by
  have halloc : Function.Injective (· + 1 : ℕ → Addr) := fun _ _ => Nat.succ.inj
  have hops : ∀ op ∈ (List.range 29).map fun i => (i, i + 100), op.2 ≠ 0 := by decide
  obtain ⟨t, p, heq, hp, hnext, hsibling, hcount, hdescend, -⟩ := Tree.exists_fullRoot
  have hsearch : ((Tree.new (· + 1)).insertAll (· + 1)
      ((List.range 29).map fun i => (i, i + 100))).bind (·.search 20) = some 120 := by decide +kernel
  rw [heq, Option.bind_some] at hsearch
  have hover : t.Overflows 1 29 true p 29 :=
    ⟨hp, fun h0 => absurd hsibling h0, hcount, by decide, fun _ => rfl⟩
  obtain ⟨r, hr⟩ := searches_splitFrozen (· + 1) halloc Nat.succ_ne_zero _ hops heq
    (show (129 : Addr) ≠ 0 by decide) (.insert hdescend) hover
    (by rw [hnext]; exact promised_range 29) (by rw [hnext]; exact promised_range 30) 64 20
  obtain rfl : 120 = r := (hr 120).1.mp (Tree.searches_of_search hsearch)
  exact ⟨t, p, heq, hover, hsearch, hr⟩

end McfKv.Btree
