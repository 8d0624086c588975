import Mathlib.Logic.Function.Basic
import Mathlib.Data.Int.Order.Basic
import Mathlib.Data.Nat.Basic
import Mathlib.Order.Nat

/-!
# Pages of the FAST and FAIR tree (`multi-cuckoo-index/ff_btreee.h`, `index/ff_btree.h`)

A page is an array of records that ends at the first record with a null pointer; what
lies behind it is stale. `insert_key` shifts records to the right one store at a time,
and `linear_search` is meant to be right on the page at any moment between two stores,
because it ignores a record whose pointer equals the pointer to its left.

The model keeps the stores. `recordStores` is the list of stores to `key` and `ptr`
fields that `insert_key` makes, in source order, and `insertKey` applies them all. A
page is frozen after any initial segment of the list.

A page is `Sound` if its records are in order; it is `Live` if in addition it is scanned from
left to right, as after an insertion. A removal changes the direction.

`readable_iff`: the insertion is readable at every store exactly when the new key
  goes behind all the others and nothing else of the tree claims it. In front of a
  record, the store of the key exposes the pointer of the record that has just been
  shifted away, because the store that would duplicate the left neighbour's pointer
  first is commented out in the source.

Reads behind the last record of the array, and reads through a null or dangling
pointer, make a function `none`.
-/

namespace McfKv.Btree

/-- A persistent address; `0` is the null pointer. -/
abbrev Addr := ℕ

/-- `cardinality = (PAGESIZE - sizeof(Header)) / sizeof(Entry)`. -/
def cardinality : ℕ := (512 - 24) / 16

/-- `class Page`: its header, and the `key` and `ptr` fields of its records. -/
structure Page where
  leftmostPtr : Addr
  siblingPtr : Addr
  level : ℕ
  switchCounter : ℕ
  lastIndex : ℤ
  key : ℕ → ℕ
  ptr : ℕ → Addr

namespace Page

/-- `Page(uint32_t level)`. -/
def new (level : ℕ) : Page where
  leftmostPtr := 0
  siblingPtr := 0
  level := level
  switchCounter := 0
  lastIndex := -1
  key := fun _ => 0
  ptr := fun _ => 0

/-- `Page(Page* left, const entry_key_t& key, Page* right, uint32_t level)`. -/
def newRoot (left : Addr) (key : ℕ) (right : Addr) (level : ℕ) : Page where
  leftmostPtr := left
  siblingPtr := 0
  level := level
  switchCounter := 0
  lastIndex := 0
  key := Function.update (fun _ => 0) 0 key
  ptr := Function.update (fun _ => 0) 0 right

/-- `IS_FORWARD(hdr.switch_counter)`. -/
def isForward (p : Page) : Bool := p.switchCounter % 2 = 0

/-- Count upwards to the first null pointer, at most to the end of the array. -/
def countUp (p : Page) : ℕ → ℕ → Option ℕ
  | 0, _ => none
  | fuel + 1, i => if p.ptr i = 0 then some i else countUp p fuel (i + 1)

/-- Count downwards to the first null pointer, and upwards from the first record when
there is none. -/
def countDown (p : Page) : ℕ → Option ℕ
  | 0 => if p.ptr 0 = 0 then some 0 else p.countUp cardinality 0
  | i + 1 => if p.ptr (i + 1) = 0 then some (i + 1) else countDown p i

/-- `Page::count`. -/
def count (p : Page) : Option ℕ :=
  let start := p.lastIndex + 1
  if start < 0 then p.countUp cardinality 0
  else if p.isForward then p.countUp (cardinality - start.toNat) start.toNat
  else p.countDown start.toNat

/-! ## `insert_key` -/

/-- A store to a field of a record. -/
inductive Store where
  | key (i : ℕ) (k : ℕ)
  | ptr (i : ℕ) (q : Addr)
deriving DecidableEq, Repr

/-- Perform one store. -/
def write (p : Page) : Store → Page
  | .key i k => { p with key := Function.update p.key i k }
  | .ptr i q => { p with ptr := Function.update p.ptr i q }

/-- Perform a list of stores. -/
def writeAll (p : Page) (stores : List Store) : Page := stores.foldl write p

/-- The stores of the shifting loop, given how many records are left to look at. -/
def shiftStores (k : ℕ) (q : Addr) : ℕ → Page → List Store
  | 0, _ => [.key 0 k, .ptr 0 q]
  | i + 1, p =>
    if k < p.key i then
      .ptr (i + 1) (p.ptr i) :: .key (i + 1) (p.key i) ::
        shiftStores k q i ((p.write (.ptr (i + 1) (p.ptr i))).write (.key (i + 1) (p.key i)))
    else [.key (i + 1) k, .ptr (i + 1) q]

/-- The last record with a key, among the first `n`. -/
def findDuplicate (p : Page) (k : ℕ) : ℕ → Option ℕ
  | 0 => none
  | i + 1 => if k = p.key i then some i else findDuplicate p k i

/-- The stores to records that `insert_key` makes on a page with `n` entries, and the old
pointer when the key was there. -/
def recordStores (p : Page) (k : ℕ) (q : Addr) (n : ℕ) : List Store × Option Addr :=
  if n = 0 then ([.key 0 k, .ptr 0 q, .ptr 1 0], none)
  else
    let p1 := p.write (.ptr (n + 1) (p.ptr n))
    match if p.leftmostPtr = 0 then p1.findDuplicate k n else none with
    | some i => ([.ptr (n + 1) (p.ptr n), .ptr i q], some (p1.ptr i))
    | none => (.ptr (n + 1) (p.ptr n) :: shiftStores k q n p1, none)

/-- What `insert_key` leaves behind: the page, its result, and `*num_entries`. -/
structure Inserted where
  page : Page
  old : Addr
  numEntries : ℕ

/-- `Page::insert_key`. -/
def insertKey (p : Page) (k : ℕ) (q : Addr) (n : ℕ) : Inserted :=
  let p := if p.isForward then p else { p with switchCounter := (p.switchCounter + 1) % 256 }
  let stores := p.recordStores k q n
  match stores.2 with
  | some old => ⟨p.writeAll stores.1, old, n⟩
  | none => ⟨{ p.writeAll stores.1 with lastIndex := n }, 0, n + 1⟩

/-! ## `linear_search` -/

/-- The scan of a leaf from left to right, from record `i` on. -/
def leafScan (p : Page) (k : ℕ) : ℕ → ℕ → Option Addr
  | 0, _ => none
  | fuel + 1, i =>
    if p.ptr i = 0 then some 0
    else if p.key i = k ∧ p.ptr (i - 1) ≠ p.ptr i then some (p.ptr i)
    else leafScan p k fuel (i + 1)

/-- The scan of a leaf from right to left, from record `i` down. -/
def leafScanBack (p : Page) (k : ℕ) : ℕ → Addr
  | 0 => if p.key 0 = k ∧ p.ptr 0 ≠ 0 then p.ptr 0 else 0
  | i + 1 =>
    if p.key (i + 1) = k ∧ p.ptr i ≠ p.ptr (i + 1) ∧ p.ptr (i + 1) ≠ 0 then p.ptr (i + 1)
    else leafScanBack p k i

/-- The loop of `linear_search` on a leaf: the variable `ret`. -/
def leafRet (p : Page) (k : ℕ) : Option Addr :=
  if p.isForward then
    if p.key 0 = k ∧ p.ptr 0 ≠ 0 then some (p.ptr 0) else p.leafScan k (cardinality - 1) 1
  else p.count.map fun n => p.leafScanBack k (n - 1)

/-- The scan of an internal page from left to right, from record `i` on. -/
def innerScan (p : Page) (k : ℕ) : ℕ → ℕ → Option Addr
  | 0, _ => none
  | fuel + 1, i =>
    if p.ptr i = 0 then some (p.ptr (i - 1))
    else if k < p.key i ∧ p.ptr (i - 1) ≠ p.ptr i then some (p.ptr (i - 1))
    else innerScan p k fuel (i + 1)

/-- The scan of an internal page from right to left, given how many records are left. -/
def innerScanBack (p : Page) (k : ℕ) : ℕ → Addr
  | 0 => 0
  | i + 1 =>
    if p.key i ≤ k ∧ (if i = 0 then p.leftmostPtr else p.ptr (i - 1)) ≠ p.ptr i then p.ptr i
    else innerScanBack p k i

/-- The loop of `linear_search` on an internal page: the variable `ret`. -/
def innerRet (p : Page) (k : ℕ) : Option Addr :=
  if p.isForward then
    if k < p.key 0 ∧ p.leftmostPtr ≠ p.ptr 0 then some p.leftmostPtr
    else p.innerScan k (cardinality - 1) 1
  else p.count.map fun n => p.innerScanBack k n

/-- Go on to the sibling when the key is not below its first key, and return `other`
otherwise. `firstKey` reads `records[0].key` of a page in memory. -/
def orSibling (firstKey : Addr → Option ℕ) (p : Page) (k : ℕ) (other : Addr) : Option Addr :=
  if p.siblingPtr = 0 then some other
  else (firstKey p.siblingPtr).map fun first => if first ≤ k then p.siblingPtr else other

/-- `Page::linear_search`. -/
def linearSearch (firstKey : Addr → Option ℕ) (p : Page) (k : ℕ) : Option Addr :=
  if p.leftmostPtr = 0 then
    (p.leafRet k).bind fun ret => if ret ≠ 0 then some ret else p.orSibling firstKey k 0
  else
    (p.innerRet k).bind fun ret =>
      p.orSibling firstKey k (if ret ≠ 0 then ret else p.leftmostPtr)

/-! ## Pages in order -/

/-- A page in order, except for the direction of its scans, with `n` entries: strictly ascending keys
and non-null pointers up to the terminator, and a consistent `last_index`. -/
structure Sound (p : Page) (n : ℕ) : Prop where
  le : n ≤ cardinality - 1
  ptr_ne : ∀ i < n, p.ptr i ≠ 0
  ptr_end : p.ptr n = 0
  sorted : ∀ i j, i < j → j < n → p.key i < p.key j
  last : p.lastIndex = (n : ℤ) - 1

/-- A page in order with `n` entries; its `switch_counter` is even. -/
structure Live (p : Page) (n : ℕ) : Prop extends p.Sound n where
  forward : p.isForward = true

variable {p : Page} {n i j k m fuel : ℕ} {q old : Addr}

theorem Live.sound (h : p.Live n) : p.Sound n := h.toSound

theorem Sound.live (h : p.Sound n) (hforward : p.isForward = true) : p.Live n := ⟨h, hforward⟩

theorem Sound.setHeader (h : p.Sound n) (leftmost sibling : Addr) :
    Sound { p with leftmostPtr := leftmost, siblingPtr := sibling } n :=
  ⟨h.le, h.ptr_ne, h.ptr_end, h.sorted, h.last⟩

/-- The page holds an entry among its first `n` records. -/
def Has (p : Page) (n : ℕ) (k : ℕ) (q : Addr) : Prop := ∃ i < n, p.key i = k ∧ p.ptr i = q

theorem countUp_sound (h : p.Sound n) (hi : i ≤ n) (hfuel : n < i + fuel) :
    p.countUp fuel i = some n := by
  induction fuel generalizing i with
  | zero => omega
  | succ fuel ih =>
    unfold countUp
    rcases Nat.eq_or_lt_of_le hi with rfl | hi
    · rw [if_pos h.ptr_end]
    · rw [if_neg (h.ptr_ne i hi)]
      exact ih hi (by omega)

theorem countDown_end (hend : p.ptr n = 0) : p.countDown n = some n := by
  cases n with
  | zero => exact if_pos hend
  | succ n => exact if_pos hend

theorem count_sound (h : p.Sound n) : p.count = some n := by
  have hcard : n < cardinality := lt_of_le_of_lt h.le (by decide)
  have hstart : p.lastIndex + 1 = n := by rw [h.last]; omega
  unfold count
  simp only [hstart, Int.toNat_natCast]
  rw [if_neg (by omega)]
  split_ifs
  · exact countUp_sound h le_rfl (by omega)
  · exact countDown_end h.ptr_end

theorem Sound.key_inj (h : p.Sound n) (hi : i < n) (hj : j < n) (heq : p.key i = p.key j) :
    i = j := by
  rcases Nat.lt_trichotomy i j with hlt | heq' | hlt
  · exact absurd heq (h.sorted i j hlt hj).ne
  · exact heq'
  · exact absurd heq.symm (h.sorted j i hlt hi).ne

theorem Sound.key_le (h : p.Sound n) (hij : i ≤ j) (hj : j < n) : p.key i ≤ p.key j := by
  rcases Nat.eq_or_lt_of_le hij with rfl | hlt
  · exact le_rfl
  · exact (h.sorted i j hlt hj).le

theorem Sound.key_zero_le (h : p.Sound n) (hi : i < n) : p.key 0 ≤ p.key i :=
  h.key_le (Nat.zero_le i) hi

/-- The page at the start of an insertion: its scans go from left to right. -/
def turned (p : Page) : Page :=
  if p.isForward then p else { p with switchCounter := (p.switchCounter + 1) % 256 }

theorem turned_isForward (p : Page) : p.turned.isForward = true := by
  unfold turned
  split_ifs with h
  · exact h
  · simp only [isForward, decide_eq_true_eq] at h ⊢
    omega

@[simp] theorem turned_key (p : Page) : p.turned.key = p.key := by
  unfold turned
  split_ifs <;> rfl

@[simp] theorem turned_ptr (p : Page) : p.turned.ptr = p.ptr := by
  unfold turned
  split_ifs <;> rfl

@[simp] theorem turned_lastIndex (p : Page) : p.turned.lastIndex = p.lastIndex := by
  unfold turned
  split_ifs <;> rfl

@[simp] theorem turned_leftmostPtr (p : Page) : p.turned.leftmostPtr = p.leftmostPtr := by
  unfold turned
  split_ifs <;> rfl

@[simp] theorem turned_siblingPtr (p : Page) : p.turned.siblingPtr = p.siblingPtr := by
  unfold turned
  split_ifs <;> rfl

@[simp] theorem turned_level (p : Page) : p.turned.level = p.level := by
  unfold turned
  split_ifs <;> rfl

theorem Sound.turned (h : p.Sound n) : p.turned.Live n where
  le := h.le
  ptr_ne := by simpa using h.ptr_ne
  ptr_end := by simpa using h.ptr_end
  sorted := by simpa using h.sorted
  last := by simpa using h.last
  forward := p.turned_isForward

theorem turned_has (p : Page) (n k : ℕ) (q : Addr) : p.turned.Has n k q ↔ p.Has n k q := by
  unfold Has
  simp

theorem insertKey_turned (p : Page) (k : ℕ) (q : Addr) (n : ℕ) :
    p.turned.insertKey k q n = p.insertKey k q n := by
  have hforward : (if p.turned.isForward then p.turned else
      { p.turned with switchCounter := (p.turned.switchCounter + 1) % 256 }) = p.turned :=
    if_pos p.turned_isForward
  unfold insertKey
  rw [hforward]
  rfl

/-! ## What a completed insertion does -/

/-- An array whose elements from `pos` on have been copied one place to the right, up to
place `n`; the element at `pos` is still there. -/
def openAt {α : Type*} (f : ℕ → α) (pos n : ℕ) (j : ℕ) : α :=
  if j ≤ pos then f j else if j ≤ n then f (j - 1) else f j

section OpenAt

variable {α : Type*} (f : ℕ → α) {pos n j : ℕ}

theorem openAt_of_le (h : j ≤ pos) : openAt f pos n j = f j := if_pos h

theorem openAt_of_mem (h : pos < j) (hn : j ≤ n) : openAt f pos n j = f (j - 1) := by
  rw [openAt, if_neg (by omega), if_pos hn]

theorem openAt_of_gt (h : pos < j) (hn : n < j) : openAt f pos n j = f j := by
  rw [openAt, if_neg (by omega), if_neg (by omega)]

theorem openAt_self : openAt f n n = f := by
  funext j
  rcases le_or_gt j n with h | h
  · exact openAt_of_le f h
  · exact openAt_of_gt f h h

theorem openAt_update (h : pos ≤ n) :
    openAt (Function.update f (n + 1) (f n)) pos n = openAt f pos (n + 1) := by
  funext j
  rcases le_or_gt j pos with hj | hj
  · rw [openAt_of_le _ hj, openAt_of_le _ hj, Function.update_of_ne (by omega)]
  · rcases Nat.lt_trichotomy j (n + 1) with hn | rfl | hn
    · rw [openAt_of_mem _ hj (by omega), openAt_of_mem _ hj (by omega),
        Function.update_of_ne (by omega)]
    · rw [openAt_of_gt _ hj (by omega), openAt_of_mem _ hj le_rfl, Function.update_self]
      rfl
    · rw [openAt_of_gt _ hj (by omega), openAt_of_gt _ hj hn, Function.update_of_ne (by omega)]

theorem update_openAt (x : α) : Function.update (openAt f pos n) pos x j =
    if j = pos then x else if pos < j ∧ j ≤ n then f (j - 1) else f j := by
  rw [Function.update_apply, openAt]
  grind

end OpenAt

/-- The shifting loop stops at a place `pos`: before its last store, the records from
`pos` on have been shifted and the key has been written, but not the pointer. -/
theorem shiftStores_spec (k : ℕ) (q : Addr) (i : ℕ) : ∀ p : Page, ∃ pos ≤ i, ∃ stores,
      shiftStores k q i p = stores ++ [.ptr pos q] ∧
      (∀ j, pos ≤ j → j < i → k < p.key j) ∧ (∀ j, pos = j + 1 → p.key j ≤ k) ∧ p.writeAll stores =
        { p with
          key := Function.update (openAt p.key pos i) pos k
          ptr := openAt p.ptr pos i } := by
  induction i with
  | zero =>
    intro p
    refine ⟨0, le_rfl, [.key 0 k], rfl, fun j _ hj => absurd hj (Nat.not_lt_zero j),
      fun j hj => absurd hj (by omega), ?_⟩
    simp [writeAll, write, openAt_self]
  | succ i ih =>
    intro p
    unfold shiftStores
    by_cases hk : k < p.key i
    · rw [if_pos hk]
      obtain ⟨pos, hpos, stores, heq, hright, hleft, hwrite⟩ :=
        ih ((p.write (.ptr (i + 1) (p.ptr i))).write (.key (i + 1) (p.key i)))
      refine ⟨pos, by omega, .ptr (i + 1) (p.ptr i) :: .key (i + 1) (p.key i) :: stores,
        by rw [heq]; rfl, fun j hj hji => ?_, fun j hj => ?_, ?_⟩
      · rcases Nat.lt_or_ge j i with hlt | hge
        · have := hright j hj hlt
          simpa [write, Function.update_of_ne (show j ≠ i + 1 by omega)] using this
        · obtain rfl : j = i := by omega
          exact hk
      · have := hleft j hj
        simpa [write, Function.update_of_ne (show j ≠ i + 1 by omega)] using this
      · change writeAll ((p.write _).write _) stores = _
        rw [hwrite]
        simp [write, openAt_update _ hpos]
    · rw [if_neg hk]
      refine ⟨i + 1, le_rfl, [.key (i + 1) k], rfl, fun j hj hji => absurd hj (by omega),
        fun j hj => ?_, ?_⟩
      · obtain rfl : j = i := by omega
        exact Nat.not_lt.mp hk
      · simp [writeAll, write, openAt_self]

theorem findDuplicate_none (h : ∀ i < n, p.key i ≠ k) : p.findDuplicate k n = none := by
  induction n with
  | zero => rfl
  | succ n ih =>
    unfold findDuplicate
    rw [if_neg fun heq => h n (Nat.lt_succ_self n) heq.symm]
    exact ih fun i hi => h i (Nat.lt_succ_of_lt hi)

theorem findDuplicate_some (h : p.Sound n) (hm : m ≤ n) (hi : i < m) :
    p.findDuplicate (p.key i) m = some i := by
  induction m with
  | zero => omega
  | succ m ih =>
    unfold findDuplicate
    by_cases heq : p.key i = p.key m
    · rw [if_pos heq, h.key_inj (by omega) (by omega) heq]
    · have hne : i ≠ m := fun h => heq (h ▸ rfl)
      rw [if_neg heq]
      exact ih (by omega) (by omega)

theorem recordStores_of_pos (hn : 0 < n) (hnew : ∀ i < n, p.key i ≠ k) :
    p.recordStores k q n = (.ptr (n + 1) (p.ptr n) ::
      shiftStores k q n (p.write (.ptr (n + 1) (p.ptr n))), none) := by
  unfold recordStores
  rw [if_neg hn.ne']
  have hdup : (if p.leftmostPtr = 0 then
      (p.write (.ptr (n + 1) (p.ptr n))).findDuplicate k n else none) = none := by
    split_ifs
    · exact findDuplicate_none hnew
    · rfl
  simp only [hdup]

/-- The page after the insertion of a new key at `pos`. -/
def inserted (p : Page) (k : ℕ) (q : Addr) (n pos : ℕ) : Page :=
  { p with
    key := Function.update (openAt p.key pos n) pos k
    ptr := Function.update (openAt (Function.update p.ptr (n + 1) 0) pos n) pos q
    lastIndex := n }

/-- **The insertion of a new key** opens the page at the place of the key. -/
theorem insertKey_eq (h : p.Live n) (q : Addr) (hnew : ∀ i < n, p.key i ≠ k) :
    ∃ pos ≤ n, (∀ j < pos, p.key j < k) ∧ (∀ j, pos ≤ j → j < n → k < p.key j) ∧
      p.insertKey k q n = ⟨p.inserted k q n pos, 0, n + 1⟩ := by
  rcases Nat.eq_zero_or_pos n with rfl | hn
  · refine ⟨0, le_rfl, fun j hj => absurd hj (Nat.not_lt_zero j),
      fun j _ hj => absurd hj (Nat.not_lt_zero j), ?_⟩
    simp only [insertKey, h.forward, recordStores, inserted, writeAll, write, if_true,
      List.foldl_cons, List.foldl_nil, openAt_self]
    rw [Function.update_comm (by decide : (1 : ℕ) ≠ 0)]
  · obtain ⟨pos, hpos, stores, heq, hright, hleft, hwrite⟩ :=
      shiftStores_spec k q n (p.write (.ptr (n + 1) (p.ptr n)))
    have hbelow : ∀ j < pos, p.key j < k := by
      intro j hj
      obtain ⟨m, rfl⟩ : ∃ m, pos = m + 1 := ⟨pos - 1, by omega⟩
      have hm : p.key m < k := lt_of_le_of_ne (hleft m rfl) (hnew m (by omega))
      rcases Nat.lt_or_ge j m with hlt | hge
      · exact (h.sorted j m hlt (by omega)).trans hm
      · obtain rfl : j = m := by omega
        exact hm
    refine ⟨pos, hpos, hbelow, hright, ?_⟩
    simp only [insertKey, h.forward, if_true, recordStores_of_pos hn hnew]
    rw [heq]
    have hall : p.writeAll (.ptr (n + 1) (p.ptr n) :: (stores ++ [.ptr pos q])) =
        ((p.write (.ptr (n + 1) (p.ptr n))).writeAll stores).write (.ptr pos q) := by
      simp [writeAll]
    rw [hall, hwrite]
    simp [write, inserted, h.ptr_end]

section Inserted

variable {p : Page} {n k pos : ℕ} {q : Addr}

theorem inserted_key (j : ℕ) : (p.inserted k q n pos).key j =
    if j = pos then k else if pos < j ∧ j ≤ n then p.key (j - 1) else p.key j :=
  update_openAt p.key k

theorem inserted_ptr (j : ℕ) : (p.inserted k q n pos).ptr j =
    if j = pos then q else if pos < j ∧ j ≤ n then p.ptr (j - 1)
    else if j = n + 1 then 0 else p.ptr j := by
  rw [show (p.inserted k q n pos).ptr j = _ from update_openAt _ q, Function.update_apply,
    Function.update_apply]
  grind

theorem inserted_live (h : p.Live n) (hn : n < cardinality - 1) (hq : q ≠ 0) (hpos : pos ≤ n)
    (hleft : ∀ j < pos, p.key j < k) (hright : ∀ j, pos ≤ j → j < n → k < p.key j) :
    (p.inserted k q n pos).Live (n + 1) where
  le := hn
  ptr_ne i hi := by
    rw [inserted_ptr]
    split_ifs with h1 h2 h3
    · exact hq
    · exact h.ptr_ne _ (by omega)
    · omega
    · exact h.ptr_ne _ (by omega)
  ptr_end := by
    rw [inserted_ptr, if_neg (by omega), if_neg (by omega), if_pos rfl]
  sorted i j hij hj := by
    rw [inserted_key, inserted_key]
    -- the two places lie on the left of the new key, on it, or on its right
    split_ifs with h1 h2 h3 h4 h5 h6 h7 h8
    · omega
    · exact hright _ (by omega) (by omega)
    · omega
    · omega
    · exact h.sorted _ _ (by omega) (by omega)
    · omega
    · exact hleft _ (by omega)
    · exact h.sorted _ _ (by omega) (by omega)
    · exact h.sorted _ _ hij (by omega)
  last := by simp [inserted]
  forward := h.forward

theorem inserted_has (hpos : pos ≤ n) (x : ℕ) (y : Addr) :
    (p.inserted k q n pos).Has (n + 1) x y ↔ (x = k ∧ y = q) ∨ p.Has n x y := by
  constructor
  · rintro ⟨i, hi, hx, hy⟩
    rw [inserted_key] at hx
    rw [inserted_ptr] at hy
    rcases Nat.lt_trichotomy i pos with hlt | rfl | hgt
    · rw [if_neg (by omega), if_neg (by omega)] at hx
      rw [if_neg (by omega), if_neg (by omega), if_neg (by omega)] at hy
      exact Or.inr ⟨i, by omega, hx, hy⟩
    · rw [if_pos rfl] at hx hy
      exact Or.inl ⟨hx.symm, hy.symm⟩
    · rw [if_neg (by omega), if_pos (by omega)] at hx hy
      exact Or.inr ⟨i - 1, by omega, hx, hy⟩
  · rintro (⟨rfl, rfl⟩ | ⟨i, hi, hx, hy⟩)
    · exact ⟨pos, by omega, by rw [inserted_key, if_pos rfl], by rw [inserted_ptr, if_pos rfl]⟩
    · rcases Nat.lt_or_ge i pos with hlt | hge
      · exact ⟨i, by omega, by rw [inserted_key, if_neg (by omega), if_neg (by omega), hx],
          by rw [inserted_ptr, if_neg (by omega), if_neg (by omega), if_neg (by omega), hy]⟩
      · refine ⟨i + 1, by omega, ?_, ?_⟩
        · rw [inserted_key, if_neg (by omega), if_pos (by omega), Nat.add_sub_cancel, hx]
        · rw [inserted_ptr, if_neg (by omega), if_pos (by omega), Nat.add_sub_cancel, hy]

end Inserted

/-- **The insertion of a new key**, as the tree uses it. Whatever the direction of the scans
was, it is from left to right afterwards. -/
theorem insertKey_new (h : p.Sound n) (hn : n < cardinality - 1) (hq : q ≠ 0)
    (hnew : ∀ i < n, p.key i ≠ k) : ∃ p', p.insertKey k q n = ⟨p', 0, n + 1⟩ ∧ p'.Live (n + 1) ∧
      (∀ x y, p'.Has (n + 1) x y ↔ (x = k ∧ y = q) ∨ p.Has n x y) ∧
      p'.leftmostPtr = p.leftmostPtr ∧ p'.siblingPtr = p.siblingPtr ∧ p'.level = p.level := by
  obtain ⟨pos, hpos, hleft, hright, heq⟩ := insertKey_eq h.turned q (by simpa using hnew)
  rw [insertKey_turned] at heq
  refine ⟨_, heq, inserted_live h.turned hn hq hpos hleft hright, fun x y => ?_,
    p.turned_leftmostPtr, p.turned_siblingPtr, p.turned_level⟩
  rw [inserted_has hpos, turned_has]

/-- **The insertion of a key that a leaf holds** replaces its pointer. -/
theorem insertKey_duplicate (h : p.Sound n) (hleaf : p.leftmostPtr = 0) (hq : q ≠ 0)
    (hold : p.Has n k old) : ∃ p', p.insertKey k q n = ⟨p', old, n⟩ ∧ p'.Live n ∧
      (∀ x y, p'.Has n x y ↔ (x = k ∧ y = q) ∨ (x ≠ k ∧ p.Has n x y)) ∧
      p'.leftmostPtr = p.leftmostPtr ∧ p'.siblingPtr = p.siblingPtr ∧ p'.level = p.level := by
  obtain ⟨i, hi, rfl, rfl⟩ := hold
  have hn : n ≠ 0 := by omega
  -- the page after the store of the terminator, and after the store to the record
  obtain ⟨p₁, hp₁⟩ : ∃ p₁, p₁ = p.turned.write (.ptr (n + 1) (p.turned.ptr n)) := ⟨_, rfl⟩
  have hkeys : p₁.key = p.key := by rw [hp₁]; exact p.turned_key
  have hptr₁ : ∀ j ≤ n, p₁.ptr j = p.ptr j := by
    intro j hj
    rw [hp₁, ← p.turned_ptr]
    exact Function.update_of_ne (by omega) ..
  have hptr : ∀ j ≤ n, (p₁.write (.ptr i q)).ptr j = if j = i then q else p.ptr j := by
    intro j hj
    rw [← hptr₁ j hj]
    exact Function.update_apply ..
  have hsound : p₁.Sound n := by
    refine ⟨h.le, fun j hj => ?_, ?_, hkeys ▸ h.sorted, ?_⟩
    · rw [hptr₁ j hj.le]
      exact h.ptr_ne j hj
    · rw [hptr₁ n le_rfl]
      exact h.ptr_end
    · rw [hp₁]
      exact p.turned_lastIndex.trans h.last
  have hdup : p₁.findDuplicate (p.key i) n = some i := by
    rw [← hkeys]
    exact findDuplicate_some hsound le_rfl hi
  refine ⟨p₁.write (.ptr i q), ?_, ⟨⟨h.le, fun j hj => ?_, ?_, hsound.sorted, hsound.last⟩, ?_⟩,
    fun x y => ⟨?_, ?_⟩, ?_⟩
  · rw [← insertKey_turned]
    simp only [insertKey, turned_isForward, if_true, recordStores, hn, if_false, turned_leftmostPtr,
      hleaf, ← hp₁, hdup, hptr₁ i hi.le]
    rw [hp₁]
    rfl
  · rw [hptr j hj.le]
    split_ifs
    · exact hq
    · exact h.ptr_ne j hj
  · rw [hptr n le_rfl, if_neg (by omega)]
    exact h.ptr_end
  · rw [hp₁]
    exact p.turned_isForward
  · rintro ⟨j, hj, hx, hy⟩
    have hx : p.key j = x := hkeys ▸ hx
    rw [hptr j hj.le] at hy
    split_ifs at hy with hji
    · exact Or.inl ⟨by rw [← hx, hji], hy.symm⟩
    · exact Or.inr ⟨fun heq => hji (h.key_inj hj hi (hx.trans heq)), j, hj, hx, hy⟩
  · rintro (⟨rfl, rfl⟩ | ⟨hne, j, hj, hx, hy⟩)
    · exact ⟨i, hi, congrFun hkeys i, by rw [hptr i hi.le, if_pos rfl]⟩
    · refine ⟨j, hj, (congrFun hkeys j).trans hx, ?_⟩
      rw [hptr j hj.le, if_neg fun heq => hne (by rw [← hx, heq]), hy]
  · rw [hp₁]
    exact ⟨p.turned_leftmostPtr, p.turned_siblingPtr, p.turned_level⟩

/-! ## What a search finds -/

/-- Where the scan of a leaf stops: at the terminator, or at a valid record with the key. -/
def Stops (p : Page) (k i : ℕ) : Prop := p.ptr i = 0 ∨ p.key i = k ∧ p.ptr (i - 1) ≠ p.ptr i

instance (p : Page) (k i : ℕ) : Decidable (p.Stops k i) := inferInstanceAs (Decidable (_ ∨ _))

theorem leafScan_eq_find? :
    p.leafScan k fuel i = ((List.range' i fuel).find? fun j => p.Stops k j).map p.ptr := by
  induction fuel generalizing i with
  | zero => rfl
  | succ fuel ih =>
    rw [leafScan, List.range'_succ, List.find?_cons, ih]
    by_cases h0 : p.ptr i = 0
    · simp [Stops, h0]
    · by_cases hvalid : p.key i = k ∧ p.ptr (i - 1) ≠ p.ptr i <;> simp [Stops, h0, hvalid]

/-- **The scan of a leaf** returns the pointer of the first record at which it stops. -/
theorem leafScan_eq_some_iff {r : Addr} :
    p.leafScan k fuel i = some r ↔ ∃ j, (p.Stops k j ∧ (i ≤ j ∧ j < i + fuel) ∧
      ∀ x, i ≤ x → x < j → ¬ p.Stops k x) ∧ p.ptr j = r := by
  simp only [leafScan_eq_find?, Option.map_eq_some_iff, List.find?_range'_eq_some,
    decide_eq_true_eq, List.mem_range'_1, Bool.not_eq_true', decide_eq_false_iff_not]

theorem leafScan_stops (hm : p.Stops k m) (hi : i ≤ m) (hfuel : m < i + fuel) :
    ∃ j, i ≤ j ∧ j ≤ m ∧ p.Stops k j ∧ (∀ x, i ≤ x → x < j → ¬ p.Stops k x) ∧
      p.leafScan k fuel i = some (p.ptr j) := by
  have hex : ∃ j, i ≤ j ∧ p.Stops k j := ⟨m, hi, hm⟩
  have hle : Nat.find hex ≤ m := Nat.find_le ⟨hi, hm⟩
  have hfirst : ∀ x, i ≤ x → x < Nat.find hex → ¬ p.Stops k x := fun x hx hlt hs =>
    Nat.find_min hex hlt ⟨hx, hs⟩
  obtain ⟨hij, hstop⟩ := Nat.find_spec hex
  exact ⟨_, hij, hle, hstop, hfirst,
    leafScan_eq_some_iff.mpr ⟨_, ⟨hstop, ⟨hij, hle.trans_lt hfuel⟩, hfirst⟩, rfl⟩⟩

section SearchLeaf

variable {p : Page} {n : ℕ}

/-- The pointers of neighbouring records differ. -/
def Adjacent (p : Page) (n : ℕ) : Prop := ∀ i, i + 1 < n → p.ptr i ≠ p.ptr (i + 1)

/-- A record that a search on a leaf does not ignore. -/
def Valid (p : Page) (i : ℕ) : Prop := p.ptr i ≠ 0 ∧ (i = 0 ∨ p.ptr (i - 1) ≠ p.ptr i)

instance (p : Page) (i : ℕ) : Decidable (p.Valid i) := by
  unfold Valid
  infer_instance

theorem Adjacent.pred (hadj : p.Adjacent n) {i : ℕ} (hpos : 0 < i) (hi : i < n) :
    p.ptr (i - 1) ≠ p.ptr i := by
  have hne := hadj (i - 1) (by omega)
  rwa [Nat.sub_add_cancel hpos] at hne

theorem Sound.valid (h : p.Sound n) (hadj : p.Adjacent n) {i : ℕ} (hi : i < n) : p.Valid i :=
  ⟨h.ptr_ne i hi, (Nat.eq_zero_or_pos i).imp_right fun hpos => hadj.pred hpos hi⟩

/-- What a scan of the records of a leaf that satisfy `R` returns: the pointer of a valid one
with the key, or null if there is none. -/
def Finds (p : Page) (k : ℕ) (R : ℕ → Prop) (r : Addr) : Prop :=
  (∃ i, R i ∧ p.Valid i ∧ p.key i = k ∧ r = p.ptr i) ∨
    (r = 0 ∧ ∀ i, R i → p.Valid i → p.key i ≠ k)

theorem leafScan_finds (h : p.Sound n) (k fuel : ℕ) {i : ℕ} (hi : 1 ≤ i) (hin : i ≤ n)
    (hfuel : n < i + fuel) :
    ∃ r, p.leafScan k fuel i = some r ∧ p.Finds k (fun j => i ≤ j ∧ j < n) r := by
  obtain ⟨j, hij, hjn, hstop, hfirst, hscan⟩ := leafScan_stops (.inl h.ptr_end) hin hfuel
  refine ⟨_, hscan, ?_⟩
  rcases Nat.lt_or_eq_of_le hjn with hjn | rfl
  · have hvalid := hstop.resolve_left (h.ptr_ne j hjn)
    exact .inl ⟨j, ⟨hij, hjn⟩, ⟨h.ptr_ne j hjn, .inr hvalid.2⟩, hvalid.1, rfl⟩
  · refine .inr ⟨h.ptr_end, fun x hx hvalid hkey => hfirst x hx.1 hx.2 (.inr ⟨hkey, ?_⟩)⟩
    exact hvalid.2.resolve_left (by omega)

theorem leafScanBack_finds (p : Page) (k m : ℕ) :
    p.Finds k (fun j => j ≤ m) (p.leafScanBack k m) := by
  induction m with
  | zero =>
    unfold leafScanBack
    split_ifs with hc
    · exact Or.inl ⟨0, le_rfl, ⟨hc.2, Or.inl rfl⟩, hc.1, rfl⟩
    · refine Or.inr ⟨rfl, fun j hj hvalid hkey => ?_⟩
      obtain rfl := Nat.le_zero.mp hj
      exact hc ⟨hkey, hvalid.1⟩
  | succ m ih =>
    unfold leafScanBack
    split_ifs with hc
    · exact Or.inl ⟨m + 1, le_rfl, ⟨hc.2.2, Or.inr hc.2.1⟩, hc.1, rfl⟩
    · rcases ih with ⟨j, hj, hvalid, hkey, hr⟩ | ⟨hr, hnone⟩
      · exact Or.inl ⟨j, Nat.le_succ_of_le hj, hvalid, hkey, hr⟩
      · refine Or.inr ⟨hr, fun j hj hvalid hkey => ?_⟩
        rcases Nat.eq_or_lt_of_le hj with rfl | hlt
        · exact hc ⟨hkey, hvalid.2.resolve_left (Nat.succ_ne_zero m), hvalid.1⟩
        · exact hnone j (Nat.lt_succ_iff.mp hlt) hvalid hkey

theorem Finds.mono {k : ℕ} {R R' : ℕ → Prop} {r : Addr} (h : p.Finds k R r)
    (hR : ∀ i, R i → p.Valid i → R' i) (hR' : ∀ i, R' i → p.Valid i → R i) : p.Finds k R' r := by
  rcases h with ⟨i, hi, hvalid, hkey, hr⟩ | ⟨hr, hnone⟩
  · exact Or.inl ⟨i, hR i hi hvalid, hvalid, hkey, hr⟩
  · exact Or.inr ⟨hr, fun i hi hvalid => hnone i (hR' i hi hvalid) hvalid⟩

/-- **The loop of `linear_search` on a leaf**, in either direction. -/
theorem leafRet_finds (h : p.Sound n) (hstale : n = 0 → p.ptr 1 = 0) (k : ℕ) :
    ∃ r, p.leafRet k = some r ∧ p.Finds k (· < n) r := by
  have hcard : n ≤ cardinality - 1 := h.le
  unfold leafRet
  split_ifs with hforward hc
  · refine ⟨_, rfl, Or.inl ⟨0, ?_, ⟨hc.2, Or.inl rfl⟩, hc.1, rfl⟩⟩
    exact Nat.pos_of_ne_zero fun h0 => hc.2 (h0 ▸ h.ptr_end)
  · rcases Nat.eq_zero_or_pos n with rfl | hpos
    · refine ⟨0, ?_, Or.inr ⟨rfl, fun i hi => absurd hi (Nat.not_lt_zero i)⟩⟩
      exact leafScan_eq_some_iff.mpr
        ⟨1, ⟨.inl (hstale rfl), by decide, fun x _ _ => by omega⟩, hstale rfl⟩
    · obtain ⟨r, heq, hfinds⟩ := leafScan_finds h k (cardinality - 1) le_rfl hpos (by omega)
      refine ⟨r, heq, ?_⟩
      rcases hfinds with ⟨j, hj, hvalid, hkey, hr⟩ | ⟨hr, hnone⟩
      · exact Or.inl ⟨j, hj.2, hvalid, hkey, hr⟩
      · refine Or.inr ⟨hr, fun j hj hvalid hkey => ?_⟩
        rcases Nat.eq_zero_or_pos j with rfl | hjpos
        · exact hc ⟨hkey, hvalid.1⟩
        · exact hnone j ⟨hjpos, hj⟩ hvalid hkey
  · rw [count_sound h]
    refine ⟨_, rfl, (leafScanBack_finds p k (n - 1)).mono (fun i hi hvalid => ?_)
      fun i hi _ => Nat.le_sub_one_of_lt hi⟩
    rcases Nat.eq_zero_or_pos n with rfl | hpos
    · obtain rfl := Nat.le_zero.mp hi
      exact absurd h.ptr_end hvalid.1
    · omega

theorem leafRet_has (h : p.Sound n) (hadj : p.Adjacent n) {k : ℕ} {q : Addr}
    (hq : p.Has n k q) : p.leafRet k = some q := by
  obtain ⟨m, hm, rfl, rfl⟩ := hq
  obtain ⟨r, heq, ⟨i, hi, -, hkey, rfl⟩ | ⟨-, hnone⟩⟩ :=
    leafRet_finds h (fun h0 => absurd hm (by omega)) (p.key m)
  · rw [heq, h.key_inj hi hm hkey]
  · exact absurd rfl (hnone m hm (h.valid hadj hm))

theorem leafRet_absent (h : p.Sound n) (hstale : n = 0 → p.ptr 1 = 0) {k : ℕ}
    (hk : ∀ i < n, p.key i ≠ k) : p.leafRet k = some 0 := by
  obtain ⟨r, heq, ⟨i, hi, -, hkey, -⟩ | ⟨rfl, -⟩⟩ := leafRet_finds h hstale k
  · exact absurd hkey (hk i hi)
  · exact heq

variable {firstKey : Addr → Option ℕ}

/-- **A search on a leaf** that holds the key returns its pointer. -/
theorem search_leaf_has (h : p.Sound n) (hleaf : p.leftmostPtr = 0) (hadj : p.Adjacent n)
    {k : ℕ} {q : Addr} (hq : p.Has n k q) : p.linearSearch firstKey k = some q := by
  have hne : q ≠ 0 := by
    obtain ⟨i, hi, -, rfl⟩ := hq
    exact h.ptr_ne i hi
  unfold linearSearch
  rw [if_pos hleaf, leafRet_has h hadj hq, Option.bind_some, if_pos hne]

theorem search_leaf_absent (h : p.Sound n) (hleaf : p.leftmostPtr = 0)
    (hstale : n = 0 → p.ptr 1 = 0) {k : ℕ} (hk : ∀ i < n, p.key i ≠ k) :
    p.linearSearch firstKey k = p.orSibling firstKey k 0 := by
  unfold linearSearch
  rw [if_pos hleaf, leafRet_absent h hstale hk, Option.bind_some, if_neg (by simp)]

end SearchLeaf

theorem innerScan_spec (h : p.Sound n) (hadj : p.Adjacent n) (k : ℕ) :
    ∀ fuel i, 1 ≤ i → i ≤ n → n < i + fuel → p.key (i - 1) ≤ k →
      ∃ m < n, p.key m ≤ k ∧ (∀ j, m < j → j < n → k < p.key j) ∧
        p.innerScan k fuel i = some (p.ptr m) := by
  intro fuel
  induction fuel with
  | zero => intro i hi hin hlt; omega
  | succ fuel ih =>
    intro i hi hin hlt hkey
    unfold innerScan
    rcases Nat.eq_or_lt_of_le hin with rfl | hin
    · exact ⟨i - 1, by omega, hkey, fun j hj hj' => by omega, by rw [if_pos h.ptr_end]⟩
    · rw [if_neg (h.ptr_ne i hin)]
      by_cases hk : k < p.key i
      · refine ⟨i - 1, by omega, hkey, fun j hj hj' => ?_, by rw [if_pos ⟨hk, hadj.pred hi hin⟩]⟩
        rcases Nat.eq_or_lt_of_le (show i ≤ j by omega) with rfl | hij
        · exact hk
        · exact hk.trans (h.sorted i j hij hj')
      · rw [if_neg fun hc => hk hc.1]
        exact ih (i + 1) (by omega) hin (by omega) (by simpa using Nat.not_lt.mp hk)

/-- The scan from right to left returns the same, or null if all keys are above the key. -/
theorem innerScanBack_spec (hadj : p.Adjacent n) (hleft : p.leftmostPtr ≠ p.ptr 0) (k : ℕ) :
    ∀ m ≤ n, (∀ j, m ≤ j → j < n → k < p.key j) → (p.innerScanBack k m = 0 ∧ ∀ i < n, k < p.key i) ∨
        ∃ i < n, p.key i ≤ k ∧ (∀ j, i < j → j < n → k < p.key j) ∧
          p.innerScanBack k m = p.ptr i := by
  intro m
  induction m with
  | zero => exact fun _ hall => Or.inl ⟨rfl, fun i hi => hall i (Nat.zero_le i) hi⟩
  | succ m ih =>
    intro hm hall
    have hvalid : (if m = 0 then p.leftmostPtr else p.ptr (m - 1)) ≠ p.ptr m := by
      split_ifs with h0
      · rwa [h0]
      · exact hadj.pred (Nat.pos_of_ne_zero h0) hm
    unfold innerScanBack
    by_cases hk : p.key m ≤ k
    · rw [if_pos ⟨hk, hvalid⟩]
      exact Or.inr ⟨m, hm, hk, fun j hj hj' => hall j hj hj', rfl⟩
    · rw [if_neg fun hc => hk hc.1]
      refine ih (by omega) fun j hj hj' => ?_
      rcases Nat.eq_or_lt_of_le hj with rfl | hlt
      · exact not_le.mp hk
      · exact hall j hlt hj'

/-- **A search on an internal page** returns the child for the key, in either direction. -/
theorem search_inner {firstKey : Addr → Option ℕ} (h : p.Sound n) (hpos : 0 < n)
    (hinner : p.leftmostPtr ≠ 0) (hadj : p.Adjacent n) (hleft : p.leftmostPtr ≠ p.ptr 0) (k : ℕ) :
    ∃ child, p.linearSearch firstKey k = p.orSibling firstKey k child ∧
      (((∀ i < n, k < p.key i) ∧ child = p.leftmostPtr) ∨
        ∃ m < n, p.key m ≤ k ∧ (∀ j, m < j → j < n → k < p.key j) ∧ child = p.ptr m) := by
  have hcard : n ≤ cardinality - 1 := h.le
  unfold linearSearch
  rw [if_neg hinner]
  unfold innerRet
  by_cases hforward : p.isForward = true
  · rw [if_pos hforward]
    by_cases hk : k < p.key 0
    · rw [if_pos ⟨hk, hleft⟩, Option.bind_some, if_pos hinner]
      refine ⟨_, rfl, Or.inl ⟨fun i hi => ?_, rfl⟩⟩
      exact hk.trans_le (h.key_zero_le hi)
    · rw [if_neg fun hc => hk hc.1]
      obtain ⟨m, hm, hkey, hright, hscan⟩ := innerScan_spec h hadj k (cardinality - 1) 1 le_rfl
        hpos (by omega) (by simpa using Nat.not_lt.mp hk)
      rw [hscan, Option.bind_some, if_pos (h.ptr_ne m hm)]
      exact ⟨_, rfl, Or.inr ⟨m, hm, hkey, hright, rfl⟩⟩
  · rw [if_neg hforward, count_sound h, Option.map_some, Option.bind_some]
    rcases innerScanBack_spec hadj hleft k n le_rfl (fun j hj hj' => by omega) with
      ⟨hscan, hall⟩ | ⟨m, hm, hkey, hright, hscan⟩
    · rw [hscan, if_neg (not_not.mpr rfl)]
      exact ⟨_, rfl, Or.inl ⟨hall, rfl⟩⟩
    · rw [hscan, if_pos (h.ptr_ne m hm)]
      exact ⟨_, rfl, Or.inr ⟨m, hm, hkey, hright, rfl⟩⟩

/-! ## Searches on a frozen page -/

/-- The page frozen after the first `j` stores of the insertion of `k`. -/
def frozen (p : Page) (k : ℕ) (q : Addr) (n j : ℕ) : Page :=
  p.writeAll ((p.recordStores k q n).1.take j)

/-- Between any two stores of an insertion, a search finds every entry that was there and
finds nothing or the new pointer for the new key. -/
def Readable (firstKey : Addr → Option ℕ) (p : Page) (k : ℕ) (q : Addr) (n : ℕ) : Prop :=
  ∀ j, 0 < j → j < (p.recordStores k q n).1.length →
    (∀ x y, p.Has n x y → (p.frozen k q n j).linearSearch firstKey x = some y) ∧
      ((p.frozen k q n j).linearSearch firstKey k = some 0 ∨
        (p.frozen k q n j).linearSearch firstKey k = some q)

theorem leafScan_congr {p' : Page} (hptr : ∀ j ≤ n, p'.ptr j = p.ptr j) (hend : p.ptr n = 0) :
    ∀ fuel i, i ≤ n → (∀ j, i ≤ j → j < n → p'.key j = p.key j) →
      p'.leafScan k fuel i = p.leafScan k fuel i := by
  intro fuel
  induction fuel with
  | zero => intro i _ _; rfl
  | succ fuel ih =>
    intro i hi hkey
    unfold leafScan
    rw [hptr i hi, hptr (i - 1) (by omega)]
    rcases Nat.eq_or_lt_of_le hi with rfl | hi
    · rw [if_pos hend, if_pos hend]
    · rw [hkey i le_rfl hi, ih (i + 1) hi fun j hj => hkey j (by omega)]

theorem linearSearch_congr (hn : 0 < n) (hend : p.ptr n = 0) (hleaf : p.leftmostPtr = 0)
    (hforward : p.isForward = true) (firstKey : Addr → Option ℕ) (x : ℕ) {key : ℕ → ℕ}
    {ptr : ℕ → Addr} (hkey : ∀ j < n, key j = p.key j) (hptr : ∀ j ≤ n, ptr j = p.ptr j) :
    linearSearch firstKey { p with key := key, ptr := ptr } x = p.linearSearch firstKey x := by
  have hret : leafRet { p with key := key, ptr := ptr } x = p.leafRet x := by
    have hscan : leafScan { p with key := key, ptr := ptr } x (cardinality - 1) 1 =
        p.leafScan x (cardinality - 1) 1 :=
      leafScan_congr hptr hend _ 1 hn fun j _ hj => hkey j hj
    unfold leafRet
    rw [hscan]
    change (if p.isForward = true then
      if key 0 = x ∧ ptr 0 ≠ 0 then some (ptr 0) else p.leafScan x (cardinality - 1) 1 else _) = _
    rw [if_pos hforward, if_pos hforward, hkey 0 hn, hptr 0 (Nat.zero_le n)]
  unfold linearSearch
  rw [hret]
  change (if p.leftmostPtr = 0 then _ else _) = _
  rw [if_pos hleaf, if_pos hleaf]
  rfl

section Readable

variable {firstKey : Addr → Option ℕ} {p : Page} {k n : ℕ} {q : Addr}

/-- Before the last store of an insertion in front of a record, the new key is stored with
the pointer of that record. -/
theorem search_before_last_store (firstKey : Addr → Option ℕ) (q : Addr) (h : p.Live n)
    (hleaf : p.leftmostPtr = 0) (hadj : p.Adjacent n) (hnew : ∀ i < n, p.key i ≠ k)
    (hfront : ∃ i < n, k < p.key i) : ∃ j, 0 < j ∧ j < (p.recordStores k q n).1.length ∧
      ∃ i < n, (p.frozen k q n j).linearSearch firstKey k = some (p.ptr i) := by
  obtain ⟨i, hi, hik⟩ := hfront
  have hn : 0 < n := by omega
  have hcard : n ≤ cardinality - 1 := h.le
  obtain ⟨pos, hpos, stores, heq, hright, hleft, hwrite⟩ :=
    shiftStores_spec k q n (p.write (.ptr (n + 1) (p.ptr n)))
  -- the loop stops at or before the record in front of which the key goes
  have hposi : pos ≤ i := by
    by_contra hlt
    obtain ⟨m, rfl⟩ : ∃ m, pos = m + 1 := ⟨pos - 1, by omega⟩
    have hm : p.key m ≤ k := hleft m rfl
    rcases Nat.eq_or_lt_of_le (show i ≤ m by omega) with rfl | him
    · omega
    · have := h.sorted i m him (by omega)
      omega
  have hstores := recordStores_of_pos (q := q) hn hnew
  have hptr1 : ∀ m ≤ n, (p.write (.ptr (n + 1) (p.ptr n))).ptr m = p.ptr m :=
    fun m hm => Function.update_of_ne (by omega) _ _
  refine ⟨stores.length + 1, by omega, by rw [hstores, heq]; simp, pos, by omega, ?_⟩
  have hfrozen : p.frozen k q n (stores.length + 1) = { p.write (.ptr (n + 1) (p.ptr n)) with
        key := Function.update (openAt p.key pos n) pos k
        ptr := openAt (p.write (.ptr (n + 1) (p.ptr n))).ptr pos n } := by
    unfold frozen
    rw [hstores, heq, List.take_succ_cons, List.take_left' rfl]
    exact hwrite
  have hkeyval : ∀ m < pos, (p.frozen k q n (stores.length + 1)).key m = p.key m := by
    intro m hm
    rw [hfrozen]
    change Function.update (openAt p.key pos n) pos k m = p.key m
    rw [Function.update_of_ne (by omega), openAt_of_le _ (by omega)]
  have hptrval : ∀ m ≤ pos, (p.frozen k q n (stores.length + 1)).ptr m = p.ptr m := by
    intro m hm
    rw [hfrozen]
    change openAt _ pos n m = p.ptr m
    rw [openAt_of_le _ hm, hptr1 m (by omega)]
  have hkeypos : (p.frozen k q n (stores.length + 1)).key pos = k := by
    rw [hfrozen]
    exact Function.update_self _ _ _
  have hret : (p.frozen k q n (stores.length + 1)).leafRet k = some (p.ptr pos) := by
    have hforward : (p.frozen k q n (stores.length + 1)).isForward = true := by
      rw [hfrozen]
      exact h.forward
    unfold leafRet
    rw [if_pos hforward]
    rcases Nat.eq_zero_or_pos pos with rfl | hpos0
    · rw [if_pos ⟨hkeypos, by rw [hptrval 0 le_rfl]; exact h.ptr_ne 0 hn⟩, hptrval 0 le_rfl]
    · rw [if_neg fun hc => hnew 0 hn (by rw [← hkeyval 0 hpos0]; exact hc.1)]
      refine leafScan_eq_some_iff.mpr ⟨pos, ⟨.inr ⟨hkeypos, ?_⟩, ⟨hpos0, by omega⟩, ?_⟩,
        hptrval pos le_rfl⟩
      · rw [hptrval pos le_rfl, hptrval (pos - 1) (by omega)]
        exact hadj.pred hpos0 (by omega)
      · rintro m - hm (h0 | ⟨hk, -⟩)
        · exact h.ptr_ne m (by omega) (hptrval m hm.le ▸ h0)
        · exact hnew m (by omega) (hkeyval m hm ▸ hk)
  have hleaf' : (p.frozen k q n (stores.length + 1)).leftmostPtr = 0 := by
    rw [hfrozen]
    exact hleaf
  unfold linearSearch
  rw [if_pos hleaf', hret, Option.bind_some, if_pos (h.ptr_ne pos (by omega))]

/-- On an empty leaf, a search for the new key returns after the first store what it
returned before, and the new pointer after the second. -/
theorem search_empty (h : p.Live 0) (hleaf : p.leftmostPtr = 0) (hq : q ≠ 0) :
    (p.frozen k q 0 1).linearSearch firstKey k = p.linearSearch firstKey k ∧
      (p.frozen k q 0 2).linearSearch firstKey k = some q := by
  have hstops : ∀ i, 1 ≤ i → ((p.write (.key 0 k)).Stops k i ↔ p.Stops k i) := by
    intro i hi
    have hkey : (p.write (.key 0 k)).key i = p.key i := Function.update_of_ne (by omega) _ _
    rw [Stops, hkey]
    rfl
  have hscan : (p.write (.key 0 k)).leafScan k (cardinality - 1) 1 =
      p.leafScan k (cardinality - 1) 1 := by
    ext r
    rw [leafScan_eq_some_iff, leafScan_eq_some_iff]
    refine exists_congr fun j => and_congr_left' ?_
    grind
  have h1 : p.frozen k q 0 1 = p.write (.key 0 k) := rfl
  have h2 : p.frozen k q 0 2 = (p.write (.key 0 k)).write (.ptr 0 q) := rfl
  have hret1 : (p.write (.key 0 k)).leafRet k = p.leafRet k := by
    have hforward : (p.write (.key 0 k)).isForward = true := h.forward
    unfold leafRet
    rw [if_pos hforward, if_pos h.forward, if_neg fun hc => hc.2 h.ptr_end,
      if_neg fun hc => hc.2 h.ptr_end, hscan]
  refine ⟨?_, ?_⟩
  · have hleaf1 : (p.write (.key 0 k)).leftmostPtr = 0 := hleaf
    rw [h1]
    unfold linearSearch
    rw [if_pos hleaf1, if_pos hleaf, hret1]
    rfl
  · have hret2 : ((p.write (.key 0 k)).write (.ptr 0 q)).leafRet k = some q := by
      have hforward : ((p.write (.key 0 k)).write (.ptr 0 q)).isForward = true := h.forward
      unfold leafRet
      rw [if_pos hforward]
      simp [write, hq]
    have hleaf2 : ((p.write (.key 0 k)).write (.ptr 0 q)).leftmostPtr = 0 := hleaf
    rw [h2]
    unfold linearSearch
    rw [if_pos hleaf2, hret2, Option.bind_some, if_pos hq]

theorem recordStores_append (hn : 0 < n) (hall : ∀ i < n, p.key i < k) :
    (p.recordStores k q n).1 = [.ptr (n + 1) (p.ptr n), .key n k, .ptr n q] := by
  rw [recordStores_of_pos hn fun i hi => (hall i hi).ne]
  obtain ⟨m, rfl⟩ : ∃ m, n = m + 1 := ⟨n - 1, by omega⟩
  have hm : ¬ k < (p.write (.ptr (m + 1 + 1) (p.ptr (m + 1)))).key m :=
    Nat.not_lt.mpr (hall m (Nat.lt_succ_self m)).le
  unfold shiftStores
  rw [if_neg hm]

/-- Until the last store of an insertion behind all records, every search returns what it
returned before. -/
theorem search_append (h : p.Live n) (hleaf : p.leftmostPtr = 0) (hn : 0 < n)
    (hall : ∀ i < n, p.key i < k) {j : ℕ} (hj0 : 0 < j)
    (hj : j < (p.recordStores k q n).1.length) (x : ℕ) :
    (p.frozen k q n j).linearSearch firstKey x = p.linearSearch firstKey x := by
  unfold frozen
  rw [recordStores_append hn hall] at hj ⊢
  have hcases : j = 1 ∨ j = 2 := by
    simp only [List.length_cons, List.length_nil] at hj
    omega
  rcases hcases with rfl | rfl
  · exact linearSearch_congr hn h.ptr_end hleaf h.forward firstKey x (fun _ _ => rfl)
      fun m hm => Function.update_of_ne (by omega) _ _
  · exact linearSearch_congr hn h.ptr_end hleaf h.forward firstKey x
      (fun m hm => Function.update_of_ne (by omega) _ _)
      fun m hm => Function.update_of_ne (by omega) _ _

theorem leafScan_eq_zero_iff (k fuel i : ℕ) :
    p.leafScan k fuel i = some 0 ↔ ∃ j, i ≤ j ∧ j < i + fuel ∧ p.ptr j = 0 ∧
      ∀ x, i ≤ x → x < j → p.key x = k → p.ptr (x - 1) = p.ptr x := by
  constructor
  · intro hscan
    obtain ⟨j, ⟨-, hj, hfirst⟩, hnull⟩ := leafScan_eq_some_iff.mp hscan
    refine ⟨j, hj.1, hj.2, hnull, fun x hx hlt hkey => ?_⟩
    by_contra hvalid
    exact hfirst x hx hlt (.inr ⟨hkey, hvalid⟩)
  · rintro ⟨m, him, hm, hnull, hskip⟩
    obtain ⟨j, hij, hjm, hstop, -, hscan⟩ := leafScan_stops (.inl hnull) him hm
    rcases Nat.lt_or_eq_of_le hjm with hlt | rfl
    · have h0 := hstop.resolve_right fun hvalid => hvalid.2 (hskip j hij hlt hvalid.1)
      rw [hscan, h0]
    · rw [hscan, hnull]

/-- The key is one that the rest of the tree does not claim: the sibling starts above it,
and, when the page is empty, no stale record behind the terminator looks like a valid one
for it. -/
def Unclaimed (firstKey : Addr → Option ℕ) (p : Page) (n k : ℕ) : Prop :=
  (p.siblingPtr = 0 ∨ ∃ first, firstKey p.siblingPtr = some first ∧ k < first) ∧
    (n = 0 → ∃ j, 1 ≤ j ∧ j < cardinality ∧ p.ptr j = 0 ∧
      ∀ x, 1 ≤ x → x < j → p.key x = k → p.ptr (x - 1) = p.ptr x)

theorem orSibling_zero_iff (hsibling : p.siblingPtr ≠ q) :
    p.orSibling firstKey k 0 = some 0 ∨ p.orSibling firstKey k 0 = some q ↔
      p.siblingPtr = 0 ∨ ∃ first, firstKey p.siblingPtr = some first ∧ k < first := by
  unfold orSibling
  by_cases h0 : p.siblingPtr = 0
  · simp [h0]
  · cases hfirst : firstKey p.siblingPtr with
    | none => simp [h0]
    | some first =>
      rcases le_or_gt first k with hle | hlt
      · simp [h0, hle, hsibling]
      · simp [h0, hlt]

theorem search_unclaimed_iff (h : p.Live n) (hleaf : p.leftmostPtr = 0)
    (hnew : ∀ i < n, p.key i ≠ k) (hfresh : ∀ i, p.ptr i ≠ q) (hsibling : p.siblingPtr ≠ q) :
    p.linearSearch firstKey k = some 0 ∨ p.linearSearch firstKey k = some q ↔
      p.Unclaimed firstKey n k := by
  rcases Nat.eq_zero_or_pos n with rfl | hn
  · have hret : p.leafRet k = p.leafScan k (cardinality - 1) 1 := by
      unfold leafRet
      rw [if_pos h.forward, if_neg fun hc => hc.2 h.ptr_end]
    have hscan := leafScan_eq_zero_iff (p := p) k (cardinality - 1) 1
    rw [show 1 + (cardinality - 1) = cardinality from rfl] at hscan
    unfold Unclaimed linearSearch
    rw [if_pos hleaf, hret, ← orSibling_zero_iff hsibling, ← hscan]
    cases hr : p.leafScan k (cardinality - 1) 1 with
    | none => simp
    | some r =>
      by_cases h0 : r = 0
      · simp [h0]
      · have hrq : r ≠ q := by
          obtain ⟨j, -, rfl⟩ := leafScan_eq_some_iff.mp hr
          exact hfresh j
        simp [h0, hrq]
  · rw [search_leaf_absent h.sound hleaf (fun h0 => absurd h0 hn.ne') hnew,
      orSibling_zero_iff hsibling]
    exact ⟨fun hs => ⟨hs, fun h0 => absurd h0 hn.ne'⟩, fun hs => hs.1⟩

end Readable

/-- **When a FAST insertion is readable at every store.** On a leaf in order, the insertion
of a new key with a fresh pointer is readable between any two stores if and only if the
key is above all keys of the page and unclaimed. -/
theorem readable_iff (firstKey : Addr → Option ℕ) (p : Page) (n k : ℕ) (q : Addr)
    (h : p.Live n) (hleaf : p.leftmostPtr = 0)
    (hdistinct : ∀ i j, i < j → j < n → p.ptr i ≠ p.ptr j) (hnew : ∀ i < n, p.key i ≠ k)
    (hq : q ≠ 0) (hfresh : ∀ i, p.ptr i ≠ q) (hsibling : p.siblingPtr ≠ q) :
    p.Readable firstKey k q n ↔ (∀ i < n, p.key i < k) ∧ p.Unclaimed firstKey n k := by
  rw [← search_unclaimed_iff h hleaf hnew hfresh hsibling]
  have hadj : p.Adjacent n := fun i hi => hdistinct i (i + 1) (Nat.lt_succ_self i) hi
  constructor
  · intro hread
    have hall : ∀ i < n, p.key i < k := by
      by_contra hsome
      push Not at hsome
      obtain ⟨i, hi, hki⟩ := hsome
      obtain ⟨j, hj0, hj, m, hm, hsearch⟩ := search_before_last_store firstKey q h hleaf hadj hnew
        ⟨i, hi, lt_of_le_of_ne hki (hnew i hi).symm⟩
      rcases (hread j hj0 hj).2 with hr | hr
      · exact h.ptr_ne m hm (Option.some.inj (hsearch.symm.trans hr))
      · exact hfresh m (Option.some.inj (hsearch.symm.trans hr))
    refine ⟨hall, ?_⟩
    rcases Nat.eq_zero_or_pos n with rfl | hn
    · have hfirst := (hread 1 Nat.one_pos (by simp [recordStores])).2
      rwa [(search_empty h hleaf hq).1] at hfirst
    · have hlen : 1 < (p.recordStores k q n).1.length := by
        rw [recordStores_append hn hall]
        simp
      have hfirst := (hread 1 Nat.one_pos hlen).2
      rwa [search_append h hleaf hn hall Nat.one_pos hlen] at hfirst
  · rintro ⟨hall, hbefore⟩ j hj0 hj
    rcases Nat.eq_zero_or_pos n with rfl | hn
    · refine ⟨fun x y ⟨i, hi, _⟩ => absurd hi (Nat.not_lt_zero i), ?_⟩
      have hcases : j = 1 ∨ j = 2 := by
        simp only [recordStores, if_true, List.length_cons, List.length_nil] at hj
        omega
      rcases hcases with rfl | rfl
      · rw [(search_empty h hleaf hq).1]
        exact hbefore
      · exact Or.inr (search_empty h hleaf hq).2
    · refine ⟨fun x y hxy => ?_, ?_⟩
      · rw [search_append h hleaf hn hall hj0 hj]
        exact search_leaf_has h.sound hleaf hadj hxy
      · rw [search_append h hleaf hn hall hj0 hj]
        exact hbefore

/-- A leaf whose only entry is the key 10 with the pointer 100. -/
def oneEntry : Page := ((new 0).insertKey 10 100 0).page

theorem oneEntry_live : oneEntry.Live 1 where
  le := by decide
  ptr_ne := by decide
  ptr_end := by decide
  sorted i j hij hj := by omega
  last := rfl
  forward := rfl

theorem oneEntry_ptr_ne (i : ℕ) : oneEntry.ptr i ≠ 200 := by
  change Function.update (Function.update (fun _ => 0) 0 100) 1 0 i ≠ 200
  simp only [Function.update_apply]
  split_ifs <;> decide

/-- The key 20 goes behind the key 10 and is readable at every store; the key 5 goes in front of it
and is not. -/
theorem readable_iff_oneEntry :
    oneEntry.Readable (fun _ => none) 20 200 1 ∧ ¬ oneEntry.Readable (fun _ => none) 5 200 1 := by
  have hdistinct : ∀ i j, i < j → j < 1 → oneEntry.ptr i ≠ oneEntry.ptr j := by omega
  have hfront : ¬ ∀ i < 1, oneEntry.key i < 5 := by decide
  exact ⟨(readable_iff (fun _ => none) oneEntry 1 20 200 oneEntry_live rfl hdistinct
      (by decide) (by decide) oneEntry_ptr_ne (by decide)).mpr ⟨by decide, Or.inl rfl, by simp⟩,
    fun hread => hfront ((readable_iff (fun _ => none) oneEntry 1 5 200 oneEntry_live rfl hdistinct
      (by decide) (by decide) oneEntry_ptr_ne (by decide)).mp hread).1⟩

/-- While the key 5 goes in front of the key 10, there is a moment at which a search for 5
returns the pointer of 10 and a search for 10 finds nothing. -/
theorem insert_in_front_exposes_pointer :
    4 < (oneEntry.recordStores 5 200 1).1.length ∧ oneEntry.Has 1 10 100 ∧
      (oneEntry.frozen 5 200 1 4).linearSearch (fun _ => none) 5 = some 100 ∧
      (oneEntry.frozen 5 200 1 4).linearSearch (fun _ => none) 10 = some 0 :=
  ⟨by decide, ⟨0, by decide, rfl, rfl⟩, by decide, by decide⟩

end Page

end McfKv.Btree
