import McfKv.Index.MultiCuckooIndex

/-!
# The other index (`index/btree_index.cc`)

`BtreeIndex` keeps every key in the tree. Its `Insert` is accepted at once. Its `Get` reads the
`IndexMeta` that `Search` returns without a test for a null pointer.

The two indexes get the same calls of `Insert`, each tried until it is accepted, and
`MultiCuckooIndex` may complete its rehashes at any time. `agree_iff_inserted` is the result: after a
harmless run the two indexes answer `Get` for a key identically if and only if the key has been
inserted. For any other key `BtreeIndex` dereferences a null pointer, and `MultiCuckooIndex`
answers with the file number of another key of the same class, if there is one
(`get_absent_key`).
-/

namespace McfKv.Mci

open Btree Cuckoo Run

/-- `class BtreeIndex`, with the `IndexMeta` objects in the heap. -/
structure BtreeIndex where
  tree : Tree
  metas : Addr → ℕ

namespace BtreeIndex

/-- `BtreeIndex::BtreeIndex`. -/
def new (alloc : ℕ → Addr) : BtreeIndex := ⟨Tree.new alloc, fun _ => 0⟩

/-- `BtreeIndex::Insert`, with the address that `pmalloc` returns. -/
def insert (alloc : ℕ → Addr) (x : BtreeIndex) (key file : ℕ) (ptr : Addr) : Option BtreeIndex :=
  (x.tree.insert alloc key ptr).map fun r => ⟨r.1, Function.update x.metas ptr file⟩

/-- `BtreeIndex::Get`. The inner `none` is the dereference of a null pointer. -/
def get (x : BtreeIndex) (key : Slice) : Option (Option ℕ) :=
  (x.tree.search (Coding.fastAtoi key)).map fun res => if res ≠ 0 then some (x.metas res) else none

/-- The index stores a map of file numbers. -/
def Stores (alloc : ℕ → Addr) (x : BtreeIndex) (expected : ℕ → Option ℕ) : Prop :=
  ∃ ptrs, TreeOk alloc x.tree ptrs ∧ ∀ key, expected key = (ptrs key).map x.metas

section Stores

variable {alloc : ℕ → Addr} {x : BtreeIndex} {expected : ℕ → Option ℕ}

theorem new_stores (hnull : ∀ i, alloc i ≠ 0) : (new alloc).Stores alloc fun _ => none :=
  ⟨fun _ => none, ⟨⟨_, (Rep.new hnull).1, (Rep.new hnull).2, rfl⟩, by simp, by simp, by simp⟩,
    fun _ => rfl⟩

/-- **`Get` reads the map**, and dereferences a null pointer for a key that is not in it. -/
theorem Stores.get (h : x.Stores alloc expected) (key : Slice) :
    x.get key = some (expected (Coding.fastAtoi key)) := by
  obtain ⟨ptrs, htree, hexpected⟩ := h
  unfold BtreeIndex.get
  rw [htree.search, Option.map_some, hexpected]
  cases hptr : ptrs (Coding.fastAtoi key) with
  | none => simp
  | some q => simp [htree.nonnull _ q hptr]

theorem Stores.insert (h : x.Stores alloc expected) (halloc : Function.Injective alloc)
    (hnull : ∀ i, alloc i ≠ 0) (key file : ℕ) {ptr : Addr} (hptr : ptr ≠ 0)
    (hpage : ∀ i, alloc i ≠ ptr) (hfresh : ∀ k, x.tree.search k ≠ some ptr) :
    ∃ x', x.insert alloc key file ptr = some x' ∧
      x'.Stores alloc (Function.update expected key (some file)) := by
  obtain ⟨ptrs, htree, hexpected⟩ := h
  have hstored := htree.not_stored hfresh
  obtain ⟨t', old, heq, htree'⟩ := htree.insert halloc hnull key hptr hpage hstored
  refine ⟨⟨t', Function.update x.metas ptr file⟩, by rw [BtreeIndex.insert, heq]; rfl,
    Function.update ptrs key (some ptr), htree', fun k => ?_⟩
  by_cases hk : k = key
  · subst hk
    simp
  · rw [Function.update_of_ne hk, Function.update_of_ne hk, hexpected k]
    cases hq : ptrs k with
    | none => rfl
    | some q =>
      have hne : q ≠ ptr := by
        rintro rfl
        exact hstored k hq
      simp [Function.update_of_ne hne]

end Stores

end BtreeIndex

/-! ## Both indexes -/

/-- Both indexes, and the file number of the last accepted `Insert` of each key. -/
structure Pair where
  mci : World
  btree : BtreeIndex

/-- One attempt of an `Insert`, with the addresses that `pmalloc` returns in the two indexes, or
the completion of a rehash. -/
inductive Pair.Op where
  | insert (key file : ℕ) (ptr ptr' : Addr)
  | rehash (cf : ℕ)

section Pair

variable (P : Params) (alloc : ℕ → Addr)

def Pair.init : Pair := ⟨World.init P, .new alloc⟩

/-- One step. An attempt that `MultiCuckooIndex` does not accept is made again. -/
def Pair.step (w : Pair) : Pair.Op → Option Pair
  | .insert key file ptr ptr' =>
    (w.mci.index.insert P key file ptr).bind fun r =>
      if r.1.isOk then
        (w.btree.insert alloc key file ptr').map fun b => ⟨w.mci.returned key file r, b⟩
      else some { w with mci := w.mci.returned key file r }
  | .rehash cf => (Mci.step P w.mci (.rehash cf)).map fun m => { w with mci := m }

/-- Both indexes answer a `Get`, with the same file number. -/
def Pair.Agree (w : Pair) (key : Slice) : Prop :=
  ∃ file, w.mci.index.get P key = some file ∧ w.btree.get key = some (some file)

/-- The promises of the callers and of `pmalloc`. -/
def Pair.Promised (w : Pair) : Pair.Op → Prop
  | .insert key file ptr ptr' => w.mci.Promised P (.insert key file ptr) ∧ ptr' ≠ 0 ∧
      (∀ i, alloc i ≠ ptr') ∧ ∀ k, w.btree.tree.search k ≠ some ptr'
  | .rehash _ => True

/-- `MultiCuckooIndex` takes no harm from the step. -/
def Pair.Harmless (w : Pair) : Pair.Op → Prop
  | .insert key file ptr _ => w.mci.Harmless P (.insert key file ptr)
  | .rehash cf => w.mci.Harmless P (.rehash cf)

end Pair

section Steps

variable {P : Params} {alloc : ℕ → Addr}

/-- Both indexes stand for the same map. -/
def Pair.Inv (P : Params) (alloc : ℕ → Addr) (w : Pair) : Prop :=
  (∃ ptrs M, Mci.Inv P w.mci ptrs M) ∧ w.btree.Stores alloc w.mci.expected

theorem Pair.Inv.agree_iff {w : Pair} (h : w.Inv P alloc) (key : Slice) :
    w.Agree P key ↔ w.mci.expected (Coding.fastAtoi key) ≠ none := by
  obtain ⟨⟨ptrs, M, hmci⟩, hbtree⟩ := h
  unfold Pair.Agree
  rw [hbtree.get key]
  constructor
  · rintro ⟨file, -, hfile⟩
    rw [Option.some.inj hfile]
    simp
  · intro hkey
    obtain ⟨file, hfile⟩ := Option.ne_none_iff_exists'.mp hkey
    exact ⟨file, hmci.get hfile, by rw [hfile]⟩

theorem Pair.step_inv (hP : Function.Injective P.alloc) (hnull : ∀ i, P.alloc i ≠ 0)
    (halloc : Function.Injective alloc) (hnull' : ∀ i, alloc i ≠ 0) (w : Pair) (op : Pair.Op)
    (h : w.Inv P alloc) (hok : w.Promised P alloc op ∧ w.Harmless P op) :
    ∃ w', w.step P alloc op = some w' ∧ w'.Inv P alloc := by
  obtain ⟨hmci, hbtree⟩ := h
  obtain ⟨hpromised, hharmless⟩ := hok
  cases op with
  | insert key file ptr ptr' =>
    obtain ⟨hpromised, hptr, hpage, hfresh⟩ := hpromised
    obtain ⟨m, hstep, hinv⟩ := Mci.step_inv hP hnull w.mci (.insert key file ptr) hmci
      ⟨hpromised, hharmless⟩
    obtain ⟨r, hr, rfl⟩ := Option.map_eq_some_iff.mp hstep
    unfold Pair.step
    dsimp only
    rw [hr, Option.bind_some]
    by_cases haccepted : r.1.isOk = true
    · obtain ⟨b, hb, hstores⟩ := hbtree.insert halloc hnull' key file hptr hpage hfresh
      rw [if_pos haccepted, hb]
      refine ⟨_, rfl, hinv, ?_⟩
      simpa [World.returned, haccepted] using hstores
    · rw [if_neg haccepted]
      refine ⟨_, rfl, hinv, ?_⟩
      simpa [World.returned, haccepted] using hbtree
  | rehash cf =>
    obtain ⟨m, hstep, hinv⟩ := Mci.step_inv hP hnull w.mci (.rehash cf) hmci ⟨trivial, hharmless⟩
    have hexpected : m.expected = w.mci.expected := by
      unfold Mci.step at hstep
      dsimp only at hstep
      split_ifs at hstep
      · obtain ⟨r, -, rfl⟩ := Option.map_eq_some_iff.mp hstep
        rfl
      · rw [← Option.some.inj hstep]
    unfold Pair.step
    dsimp only
    rw [hstep]
    exact ⟨_, rfl, hinv, by rw [hexpected]; exact hbtree⟩

end Steps

/-- **The two indexes agree on the inserted keys, and on no other key.** This holds after every
run that is harmless for `MultiCuckooIndex`, and every initial segment of such a run is such a
run. -/
theorem agree_iff_inserted (P : Params) (alloc : ℕ → Addr) (hP : Function.Injective P.alloc)
    (hnull : ∀ i, P.alloc i ≠ 0) (halloc : Function.Injective alloc) (hnull' : ∀ i, alloc i ≠ 0)
    (ops : List Pair.Op)
    (hrun : Meets (Pair.step P alloc) (fun w op => w.Promised P alloc op ∧ w.Harmless P op)
      (Pair.init P alloc) ops) :
    ∃ w, runFrom (Pair.step P alloc) (Pair.init P alloc) ops = some w ∧
      ∀ key, w.Agree P key ↔ w.mci.expected (Coding.fastAtoi key) ≠ none := by
  obtain ⟨w, heq, hinv⟩ := runFrom_total (Pair.step_inv hP hnull halloc hnull')
    ⟨⟨_, _, init_inv hnull⟩, BtreeIndex.new_stores hnull'⟩ hrun
  exact ⟨w, heq, hinv.agree_iff⟩

/-- The second key is of the class of the first one. `MultiCuckooIndex` puts it into the tree, where
`BtreeIndex` has both. -/
theorem agree_iff_inserted_sharedClass :
    ∃ w, runFrom (Pair.step oneFilter oddPages) (Pair.init oneFilter oddPages)
        [.insert 5 7 2 2, .insert (2 ^ 32 + 5) 8 2 4] = some w ∧
      ∀ key, w.Agree oneFilter key ↔ w.mci.expected (Coding.fastAtoi key) ≠ none := by
  have hnew : ∀ w : World, w.index.tree = Tree.new oddPages → w.Fresh oneFilter 2 := fun w hw =>
    .of_empty hw (by decide) rfl
  have htree := (init_inv (P := oneFilter) oddPages_ne_zero).tree
  obtain ⟨t, old, heq, ht⟩ := htree.insert oddPages_injective oddPages_ne_zero 5
    (show (2 : Addr) ≠ 0 by decide) (oddPages_ne_even rfl) (by simp)
  refine agree_iff_inserted oneFilter oddPages oddPages_injective oddPages_ne_zero
    oddPages_injective oddPages_ne_zero _
    ⟨⟨⟨⟨by decide, by decide, hnew _ rfl⟩, hnew (World.init oneFilter) rfl⟩, fun _ _ => ?_⟩,
      fun w hw => ?_⟩
  · exact ⟨by decide, Or.inl ⟨0, by decide, rfl⟩⟩
  obtain rfl := Option.some.inj hw
  refine ⟨⟨⟨⟨by decide, by decide, hnew _ rfl⟩, by decide, oddPages_ne_even rfl, fun k => ?_⟩,
    fun _ h => absurd h (by decide)⟩, fun _ _ => trivial⟩
  obtain rfl : _ = t := (Prod.mk.inj (Option.some.inj heq)).1
  intro hfound
  have hread := (ht.search k).symm.trans hfound
  by_cases hk : k = 5 <;> simp [hk] at hread

/-- One filter in which all keys are of one class. -/
def oneClass : Params where
  num := 1
  hasher := fun _ _ => 2 ^ 32
  rand := fun _ => 0
  alloc := oddPages

/-- **A key that was never inserted.** `BtreeIndex` dereferences a null pointer for it, and
`MultiCuckooIndex` returns the file number of another key. -/
theorem get_absent_key :
    ∃ w, runFrom (Pair.step oneClass oddPages) (Pair.init oneClass oddPages)
        [.insert 5 7 2 2] = some w ∧
      w.mci.expected 6 = none ∧ w.btree.get (Coding.decimalText 6) = some none ∧
        w.mci.index.get oneClass (Coding.decimalText 6) = some 7 :=
  ⟨_, rfl, rfl, by decide +kernel, by decide +kernel⟩

end McfKv.Mci
