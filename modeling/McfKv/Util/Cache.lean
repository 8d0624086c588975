import Mathlib.Algebra.BigOperators.Group.Finset.Basic
import McfKv.Lib.Run
import McfKv.Util.HandleTable

/-!
# The cache (`util/cache.cc`)

The entries of the table of an `LRUCache` are on two lists: `lru_` has those that only the cache
refers to, the oldest first, and `in_use_` those that clients hold. `Ref` and `Unref` move an entry
from one list to the other, and the last reference that goes away frees it.

`World` counts the references that clients hold, and `Legal` says which calls they may make.
`Consistent` is the invariant, and `Consistent.change` says what the change of one entry has to keep.
`lruCache_consistent` is about all runs of legal calls. `refs_of_lookups` is about runs that are not:
the references of an entry are counted modulo `2^32`.
-/

namespace McfKv.Cache

/-- `struct LRUHandle` without its links; the deleter goes with the value. -/
structure LRUHandle (V : Type) where
  key : Slice
  value : V
  charge : ℕ
  hash : ℕ
  inCache : Bool
  refs : ℕ

/-- `class LRUCache`. The entries are numbered in the order of their allocation, and one that is
freed is `none`. `lru` and `inUse` are the lists of `lru_` and `in_use_`, from `next` on;
`deleted` are the calls of the deleters. -/
structure LRUCache (V : Type) where
  capacity : ℕ
  usage : ℕ
  lru : List ℕ
  inUse : List ℕ
  table : HandleTable
  handles : ℕ → Option (LRUHandle V)
  allocated : ℕ
  deleted : List (ℕ × Slice × V)

namespace LRUCache

variable {V : Type}

/-- `LRUCache()` and `SetCapacity` -/
def new (capacity : ℕ) : Option (LRUCache V) :=
  HandleTable.new.map fun table => ⟨capacity, 0, [], [], table, fun _ => none, 0, []⟩

/-- The key and the hash of an entry. -/
def entry (c : LRUCache V) (p : ℕ) : Option (Slice × ℕ) :=
  (c.handles p).map fun e => (e.key, e.hash)

/-- `LRU_Remove`; an entry that is on neither list has no links. -/
def lruRemove (c : LRUCache V) (p : ℕ) : Option (LRUCache V) :=
  if p ∈ c.lru ∨ p ∈ c.inUse then some { c with lru := c.lru.erase p, inUse := c.inUse.erase p }
  else none

/-- `Ref` -/
def ref (c : LRUCache V) (p : ℕ) : Option (LRUCache V) := do
  let e ← c.handles p
  let c ← if e.refs = 1 ∧ e.inCache then
      (c.lruRemove p).map fun c => { c with inUse := c.inUse ++ [p] }
    else some c
  some { c with
    handles := Function.update c.handles p (some { e with refs := (e.refs + 1) % 2 ^ 32 }) }

/-- `Unref`; a failed assertion is `none` here and below. -/
def unref (c : LRUCache V) (p : ℕ) : Option (LRUCache V) := do
  let e ← c.handles p
  if e.refs = 0 then none
  else if e.refs - 1 = 0 then
    if e.inCache then none
    else some { c with
      handles := Function.update c.handles p none
      deleted := c.deleted ++ [(p, e.key, e.value)] }
  else
    let c := { c with handles := Function.update c.handles p (some { e with refs := e.refs - 1 }) }
    if e.inCache ∧ e.refs - 1 = 1 then
      (c.lruRemove p).map fun c => { c with lru := c.lru ++ [p] }
    else some c

/-- `FinishErase` -/
def finishErase (c : LRUCache V) : Option ℕ → Option (LRUCache V × Bool)
  | none => some (c, false)
  | some p => do
    let e ← c.handles p
    if e.inCache then
      let c ← c.lruRemove p
      let c ← unref { c with
        handles := Function.update c.handles p (some { e with inCache := false })
        usage := (c.usage + (2 ^ 64 - e.charge)) % 2 ^ 64 } p
      some (c, true)
    else none

/-- The loops of `Insert` and `Prune`, which take the oldest entries off the list `lru_`. -/
def evictLoop (more : LRUCache V → Bool) : ℕ → LRUCache V → Option (LRUCache V)
  | 0, _ => none
  | fuel + 1, c =>
    match c.lru with
    | [] => some c
    | p :: _ =>
      if more c then do
        let e ← c.handles p
        let (table, old) ← c.table.remove c.entry e.key e.hash
        let (c, erased) ← finishErase { c with table := table } old
        if e.refs = 1 ∧ erased then evictLoop more fuel c else none
      else some c

/-- The stores of `Insert` for an entry that goes to the cache, up to the one to the table. -/
def allocate (c : LRUCache V) (key : Slice) (hash : ℕ) (value : V) (charge : ℕ) : LRUCache V :=
  { c with
    allocated := c.allocated + 1
    handles := Function.update c.handles c.allocated (some ⟨key, value, charge, hash, true, 2⟩)
    inUse := c.inUse ++ [c.allocated]
    usage := (c.usage + charge) % 2 ^ 64 }

/-- `Insert` -/
def insert (c : LRUCache V) (key : Slice) (hash : ℕ) (value : V) (charge : ℕ) :
    Option (LRUCache V × ℕ) := do
  let p := c.allocated
  let c ← if c.capacity > 0 then do
      let c := c.allocate key hash value charge
      let (table, old) ← c.table.insert c.entry p
      (finishErase { c with table := table } old).map Prod.fst
    else some { c with
      allocated := p + 1
      handles := Function.update c.handles p (some ⟨key, value, charge, hash, false, 1⟩) }
  let c ← evictLoop (fun c => c.usage > c.capacity) (c.allocated + 1) c
  some (c, p)

/-- `Lookup` -/
def lookup (c : LRUCache V) (key : Slice) (hash : ℕ) : Option (LRUCache V × Option ℕ) := do
  match ← c.table.lookup c.entry key hash with
  | none => some (c, none)
  | some p => (c.ref p).map fun c => (c, some p)

/-- `Release` -/
def release (c : LRUCache V) (p : ℕ) : Option (LRUCache V) := c.unref p

/-- `Erase` -/
def erase (c : LRUCache V) (key : Slice) (hash : ℕ) : Option (LRUCache V) := do
  let (table, old) ← c.table.remove c.entry key hash
  (finishErase { c with table := table } old).map Prod.fst

/-- `Prune` -/
def prune (c : LRUCache V) : Option (LRUCache V) := evictLoop (fun _ => true) (c.allocated + 1) c

/-! ## The invariant -/

/-- The entries with `in_cache` set. -/
def cached (c : LRUCache V) : Finset ℕ :=
  (Finset.range c.allocated).filter fun p => (c.handles p).any LRUHandle.inCache

/-- The charge of an entry. -/
def charge (c : LRUCache V) (p : ℕ) : ℕ := (c.handles p).elim 0 LRUHandle.charge

/-- The entry `p` is `e`: the clients hold `n` references to it, and the cache one if `in_cache` is
set, and it is on the list that it belongs to. -/
abbrev Lives (hashSlice : Slice → ℕ) (c : LRUCache V) (n p : ℕ) (e : LRUHandle V) : Prop :=
  p < c.allocated ∧ p ∉ c.deleted.map Prod.fst ∧ e.hash = hashSlice e.key ∧ e.charge < 2 ^ 64 ∧
    e.refs = n + e.inCache.toNat ∧ 0 < e.refs ∧ e.refs < 2 ^ 32 ∧
    (p ∈ c.lru ↔ e.inCache = true ∧ e.refs = 1) ∧ (p ∈ c.inUse ↔ e.inCache = true ∧ 2 ≤ e.refs)

/-- The entry `p` is as it should be, for clients that hold `held p` references to it. -/
def Fits (hashSlice : Slice → ℕ) (c : LRUCache V) (held : ℕ → ℕ) (p : ℕ) : Prop :=
  match c.handles p with
  | none => held p = 0 ∧ p ∉ c.lru ∧ p ∉ c.inUse ∧ (p ∈ c.deleted.map Prod.fst ↔ p < c.allocated)
  | some e => c.Lives hashSlice (held p) p e

/-- **The cache is consistent**, and the table has the entries `T`. -/
structure Consistent (hashSlice : Slice → ℕ) (capacity : ℕ) (c : LRUCache V) (held : ℕ → ℕ)
    (T : Finset ℕ) : Prop where
  capacity_eq : c.capacity = capacity
  table : c.table.Holds c.entry T
  usage : c.usage = (∑ p ∈ c.cached, c.charge p) % 2 ^ 64
  nodup : c.lru.Nodup ∧ c.inUse.Nodup ∧ (c.deleted.map Prod.fst).Nodup
  fits : ∀ p, c.Fits hashSlice held p

variable {hashSlice : Slice → ℕ} {capacity p : ℕ} {c c' : LRUCache V} {held held' : ℕ → ℕ}
  {T : Finset ℕ} {e : LRUHandle V}

theorem Consistent.handle (h : Consistent hashSlice capacity c held T) (he : c.handles p = some e) :
    c.Lives hashSlice (held p) p e := by
  have := h.fits p
  rwa [Fits, he] at this

theorem Consistent.mem_cached (h : Consistent hashSlice capacity c held T) :
    p ∈ c.cached ↔ ∃ e, c.handles p = some e ∧ e.inCache = true := by
  rw [cached, Finset.mem_filter, Finset.mem_range, Option.any_eq_true]
  exact ⟨And.right, fun ⟨e, he, hin⟩ => ⟨(h.handle he).1, e, he, hin⟩⟩

/-- What an entry adds to the usage. -/
def weight (x : Option (LRUHandle V)) : ℕ := x.elim 0 fun e => if e.inCache then e.charge else 0

theorem sum_charge (c : LRUCache V) (hp : ∀ e, c.handles p = some e → p < c.allocated) :
    ∑ q ∈ c.cached, c.charge q = weight (c.handles p) + ∑ q ∈ c.cached.erase p, c.charge q := by
  by_cases hmem : p ∈ c.cached
  · rw [← Finset.add_sum_erase _ _ hmem]
    obtain ⟨e, he, hin⟩ := Option.any_eq_true _ _ |>.mp (Finset.mem_filter.mp hmem).2
    simp [charge, weight, he, hin]
  · rw [Finset.erase_eq_of_notMem hmem]
    cases he : c.handles p with
    | none => simp [weight]
    | some e =>
      have : e.inCache = false := by
        by_contra hin
        exact hmem (by simpa [cached, he, hp e he] using hin)
      simp [weight, this]

theorem Consistent.change (h : Consistent hashSlice capacity c held T)
    (hsame : c'.capacity = c.capacity ∧ c'.table = c.table)
    (hothers : ∀ q, q ≠ p → c'.handles q = c.handles q ∧ held' q = held q ∧
      (q < c'.allocated ↔ q < c.allocated) ∧ (q ∈ c'.lru ↔ q ∈ c.lru) ∧
      (q ∈ c'.inUse ↔ q ∈ c.inUse) ∧ (q ∈ c'.deleted.map Prod.fst ↔ q ∈ c.deleted.map Prod.fst))
    (hp : c'.Fits hashSlice held' p) (hentry : p ∈ T → c'.entry p = c.entry p)
    (hnodup : c'.lru.Nodup ∧ c'.inUse.Nodup ∧ (c'.deleted.map Prod.fst).Nodup)
    (husage : c'.usage < 2 ^ 64 ∧
      (c'.usage + weight (c.handles p)) % 2 ^ 64 = (c.usage + weight (c'.handles p)) % 2 ^ 64) :
    Consistent hashSlice capacity c' held' T := by
  have hfits : ∀ q, c'.Fits hashSlice held' q := by
    intro q
    by_cases hq : q = p
    · rwa [hq]
    · have := h.fits q
      grind [Fits]
  refine ⟨hsame.1.trans h.capacity_eq, ?_, ?_, hnodup, hfits⟩
  · rw [hsame.2]
    refine h.table.congr fun q hq => ?_
    by_cases hqp : q = p
    · subst hqp
      exact hentry hq
    · rw [entry, entry, (hothers q hqp).1]
  · have hsum : ∑ q ∈ c'.cached.erase p, c'.charge q = ∑ q ∈ c.cached.erase p, c.charge q := by
      have herase : c'.cached.erase p = c.cached.erase p := by
        ext q
        simp only [cached, Finset.mem_erase, Finset.mem_filter, Finset.mem_range]
        grind
      rw [herase]
      refine Finset.sum_congr rfl fun q hq => ?_
      rw [charge, charge, (hothers q (Finset.ne_of_mem_erase hq)).1]
    have hold := sum_charge c fun e (he : c.handles p = some e) => (h.handle he).1
    have hnew := sum_charge c' fun e (he : c'.handles p = some e) => by
      rw [Fits, he] at hp
      exact hp.1
    have := h.usage
    omega

/-- The lists and the references of an entry change. -/
def setRefs (c : LRUCache V) (p : ℕ) (e : LRUHandle V) (refs : ℕ) (lru inUse : List ℕ) :
    LRUCache V :=
  { c with
    lru := lru
    inUse := inUse
    handles := Function.update c.handles p (some { e with refs := refs }) }

section

variable (h : Consistent hashSlice capacity c held c.cached)

include h

theorem Consistent.setRefs (he : c.handles p = some e) {refs k : ℕ}
    (hrefs : refs = k + e.inCache.toNat) (hbounds : 0 < refs ∧ refs < 2 ^ 32) {lru inUse : List ℕ}
    (hnodup : lru.Nodup ∧ inUse.Nodup)
    (hlru : ∀ q, q ∈ lru ↔ if q = p then e.inCache = true ∧ refs = 1 else q ∈ c.lru)
    (hinUse : ∀ q, q ∈ inUse ↔ if q = p then e.inCache = true ∧ 2 ≤ refs else q ∈ c.inUse) :
    Consistent hashSlice capacity (c.setRefs p e refs lru inUse) (Function.update held p k)
        (c.setRefs p e refs lru inUse).cached ∧
      (c.setRefs p e refs lru inUse).cached = c.cached := by
  have hhandle := h.handle he
  have hcached : (c.setRefs p e refs lru inUse).cached = c.cached := by
    refine Finset.filter_congr fun q _ => ?_
    rw [LRUCache.setRefs]
    grind
  refine ⟨hcached ▸ h.change (p := p) ⟨rfl, rfl⟩ (fun q hq => ?_) ?_ ?_ ?_ ?_, hcached⟩
  · simp [LRUCache.setRefs, hq, hlru, hinUse]
  · simp [Fits, LRUCache.setRefs]
    grind
  · simp [entry, LRUCache.setRefs, he]
  · exact ⟨hnodup.1, hnodup.2, h.nodup.2.2⟩
  · have := h.usage
    simp only [LRUCache.setRefs, Function.update_self, he]
    exact ⟨by omega, rfl⟩

/-- **`Ref` takes a reference.** -/
theorem Consistent.ref_spec (hp : p ∈ c.cached) (hroom : held p + 2 < 2 ^ 32) :
    ∃ c', c.ref p = some c' ∧
      Consistent hashSlice capacity c' (Function.update held p (held p + 1)) c'.cached := by
  obtain ⟨e, he, hin⟩ := h.mem_cached.mp hp
  have hhandle := h.handle he
  have hnodup := h.nodup
  have hmod : (e.refs + 1) % 2 ^ 32 = held p + 1 + e.inCache.toNat := by
    simp only [Lives, hin, Bool.toNat_true] at hhandle ⊢
    omega
  by_cases hone : e.refs = 1
  · have hlru : p ∈ c.lru := by grind
    have hlists : (∀ q, q ∈ c.lru.erase p ↔ q ≠ p ∧ q ∈ c.lru) ∧
      ∀ q, q ∈ c.inUse.erase p ++ [p] ↔ q = p ∨ q ∈ c.inUse := by grind
    exact ⟨c.setRefs p e ((e.refs + 1) % 2 ^ 32) (c.lru.erase p) (c.inUse.erase p ++ [p]),
      by simp [ref, LRUCache.setRefs, he, hone, hin, lruRemove, hlru],
      (h.setRefs he hmod (by omega) (by grind) (by grind) (by grind)).1⟩
  · exact ⟨c.setRefs p e ((e.refs + 1) % 2 ^ 32) c.lru c.inUse,
      by simp [ref, LRUCache.setRefs, he, hone],
      (h.setRefs he hmod (by omega) (by grind) (by grind) (by grind)).1⟩

/-- **`Unref` gives a reference back**, and the last one frees the entry. -/
theorem Consistent.unref_spec (hp : 0 < held p) : ∃ c', c.unref p = some c' ∧
    Consistent hashSlice capacity c' (Function.update held p (held p - 1)) c'.cached ∧
    c'.cached = c.cached := by
  have hfits := h.fits p
  have hnodup := h.nodup
  obtain ⟨e, he⟩ : ∃ e, c.handles p = some e := by
    by_contra hnone
    grind [Fits]
  have hhandle := h.handle he
  obtain ⟨r, hr⟩ : ∃ r, e.refs = r + 1 := Nat.exists_eq_add_one.mpr hhandle.2.2.2.2.2.1
  have hkept : r = held p - 1 + e.inCache.toNat := by omega
  rcases Nat.eq_zero_or_pos r with rfl | hmore
  · -- the client has the last reference, so the entry is not in the cache
    have hin : e.inCache = false := by
      by_contra hin
      rw [Bool.eq_true_of_not_eq_false hin, Bool.toNat_true] at hkept
      omega
    obtain ⟨c', hc'⟩ : ∃ c', c' = { c with
        handles := Function.update c.handles p none
        deleted := c.deleted ++ [(p, e.key, e.value)] } := ⟨_, rfl⟩
    have hcached : c'.cached = c.cached := by
      rw [hc']
      refine Finset.filter_congr fun q _ => ?_
      grind
    have hmem := h.mem_cached (p := p)
    refine ⟨c', by simp [unref, he, hr, hin, hc'],
      hcached ▸ h.change (p := p) ?_ ?_ ?_ ?_ ?_ ?_, hcached⟩
    · rw [hc']
      exact ⟨rfl, rfl⟩
    · intro q hq
      simp [hc', hq]
    · simp [Fits, hc']
      grind
    · grind
    · simp only [hc', List.map_append, List.map_cons, List.map_nil]
      grind
    · have := h.usage
      have hweight : weight (c.handles p) = weight (c'.handles p) := by simp [weight, he, hin, hc']
      rw [hweight, hc']
      exact ⟨by simp only; omega, rfl⟩
  · by_cases hidle : e.inCache = true ∧ r = 1
    · have hinUse : p ∈ c.inUse := by grind
      have hlists : (∀ q, q ∈ c.inUse.erase p ↔ q ≠ p ∧ q ∈ c.inUse) ∧
        ∀ q, q ∈ c.lru.erase p ++ [p] ↔ q = p ∨ q ∈ c.lru := by grind
      exact ⟨c.setRefs p e r (c.lru.erase p ++ [p]) (c.inUse.erase p),
        by simp [unref, LRUCache.setRefs, he, hr, hidle, lruRemove, hinUse],
        h.setRefs he hkept (by omega) (by grind) (by grind) (by grind)⟩
    · exact ⟨c.setRefs p e r c.lru c.inUse,
        by simp [unref, LRUCache.setRefs, he, hr, hmore.ne', hidle],
        h.setRefs he hkept (by omega) (by grind) (by grind) (by grind)⟩

end

/-- **`FinishErase` gives the reference of the cache back**, after the table has lost the entry. -/
theorem Consistent.finishErase_spec {old : Option ℕ}
    (h : Consistent hashSlice capacity c held (c.cached.filter fun q => old ≠ some q))
    (hold : ∀ q, old = some q → q ∈ c.cached) : ∃ c', c.finishErase old = some (c', old.isSome) ∧
      Consistent hashSlice capacity c' held c'.cached ∧
      c'.cached = c.cached.filter fun q => old ≠ some q := by
  cases old with
  | none =>
    have hsame : c.cached = c.cached.filter fun q => none ≠ some q := by simp
    exact ⟨c, rfl, hsame ▸ h, hsame⟩
  | some p =>
    obtain ⟨e, he, hin⟩ := h.mem_cached.mp (hold p rfl)
    have hhandle := h.handle he
    have hnodup := h.nodup
    obtain ⟨c₁, hc₁⟩ : ∃ c₁, c₁ = { c with
        lru := c.lru.erase p
        inUse := c.inUse.erase p
        handles := Function.update c.handles p (some { e with inCache := false })
        usage := (c.usage + (2 ^ 64 - e.charge)) % 2 ^ 64 } := ⟨_, rfl⟩
    have hcached : c₁.cached = c.cached.filter fun q => some p ≠ some q := by
      rw [cached, cached, hc₁, Finset.filter_filter]
      refine Finset.filter_congr fun q _ => ?_
      grind
    -- until it is given back, the reference counts as one that a client holds
    have h₁ : Consistent hashSlice capacity c₁ (Function.update held p (held p + 1)) c₁.cached := by
      rw [hcached]
      refine h.change (p := p) ?_ (fun q hq => ?_) ?_ ?_ ?_ ?_
      · rw [hc₁]
        exact ⟨rfl, rfl⟩
      · simp only [hc₁, Function.update_of_ne hq]
        grind
      · simp [Fits, hc₁]
        grind
      · simp
      · rw [hc₁]
        grind
      · have hweights : weight (c.handles p) = e.charge ∧ weight (c₁.handles p) = 0 := by
          simp [weight, he, hin, hc₁]
        have := h.usage
        rw [hweights.1, hweights.2, hc₁]
        simp only
        omega
    obtain ⟨c', hunref, h', hcached'⟩ := h₁.unref_spec (p := p) (by simp)
    rw [Function.update_self, Nat.add_sub_cancel, Function.update_idem,
      Function.update_eq_self] at h'
    refine ⟨c', ?_, h', hcached'.trans hcached⟩
    have hlist : p ∈ c.lru ∨ p ∈ c.inUse := by
      have : e.refs = 1 ∨ 2 ≤ e.refs := by omega
      grind
    simp only [finishErase, he, hin, lruRemove, if_pos hlist, ← hc₁, hunref, Option.bind_eq_bind,
      Option.bind_some, if_true, Option.isSome_some]

theorem Consistent.remove_spec (h : Consistent hashSlice capacity c held c.cached) (key : Slice)
    (hash : ℕ) : ∃ table old c', c.table.remove c.entry key hash = some (table, old) ∧
      (∀ q, old = some q ↔ q ∈ c.cached ∧ c.entry q = some (key, hash)) ∧
      finishErase { c with table := table } old = some (c', old.isSome) ∧
      Consistent hashSlice capacity c' held c'.cached ∧
      c'.cached = c.cached.filter fun q => old ≠ some q := by
  obtain ⟨table, old, hremove, hold, ht⟩ := h.table.remove_spec key hash
  have h' : Consistent hashSlice capacity { c with table := table } held
      (c.cached.filter fun q => old ≠ some q) := ⟨h.capacity_eq, ht, h.usage, h.nodup, h.fits⟩
  obtain ⟨c', hspec⟩ := h'.finishErase_spec fun q hq => ((hold q).mp hq).1
  exact ⟨table, old, c', hremove, hold, hspec⟩

theorem Consistent.evictLoop_spec (more : LRUCache V → Bool) {fuel : ℕ}
    (h : Consistent hashSlice capacity c held c.cached) (hfuel : c.cached.card < fuel) :
    ∃ c', evictLoop more fuel c = some c' ∧ Consistent hashSlice capacity c' held c'.cached ∧
      (more c' = false ∨ c'.lru = []) := by
  induction fuel generalizing c with
  | zero => omega
  | succ fuel ih =>
    cases hlru : c.lru with
    | nil => exact ⟨c, by simp [evictLoop, hlru], h, .inr hlru⟩
    | cons p l =>
      by_cases hmore : more c
      · obtain ⟨e, he, hin, hone⟩ : ∃ e, c.handles p = some e ∧ e.inCache = true ∧ e.refs = 1 := by
          have := h.fits p
          grind [Fits]
        have hp := h.mem_cached.mpr ⟨e, he, hin⟩
        obtain ⟨table, old, c₁, hremove, hold, hfinish, h₁, hcached⟩ := h.remove_spec e.key e.hash
        obtain rfl : old = some p := (hold p).mpr ⟨hp, by simp [entry, he]⟩
        have hless : c₁.cached.card < c.cached.card := by
          rw [hcached]
          exact Finset.card_lt_card (Finset.filter_ssubset.mpr ⟨p, hp, by simp⟩)
        obtain ⟨c', hloop, hc'⟩ := ih h₁ (by omega)
        rw [hlru] at hfinish
        exact ⟨c', by simpa [evictLoop, hlru, hmore, he, hremove, hfinish, hone] using hloop, hc'⟩
      · exact ⟨c, by simp [evictLoop, hlru, hmore], h, .inl (by simpa using hmore)⟩

theorem card_cached (c : LRUCache V) : c.cached.card < c.allocated + 1 := by
  have hle : c.cached.card ≤ (Finset.range c.allocated).card := Finset.card_filter_le _ _
  rw [Finset.card_range] at hle
  exact Nat.lt_succ_of_le hle

/-- **`Insert` adds an entry** that the caller holds, and evicts others. -/
theorem Consistent.insert_spec (h : Consistent hashSlice capacity c held c.cached)
    (hcapacity : 0 < capacity) (key : Slice) (value : V) {charge : ℕ} (hcharge : charge < 2 ^ 64) :
    c.insert key (hashSlice key) value charge = none ∧ c.cached.card = 2 ^ 31 ∨
      ∃ c' p, c.insert key (hashSlice key) value charge = some (c', p) ∧
        Consistent hashSlice capacity c' (Function.update held p (held p + 1)) c'.cached ∧
        (c'.usage ≤ capacity ∨ c'.lru = []) := by
  obtain ⟨p, hp⟩ : ∃ p, p = c.allocated := ⟨_, rfl⟩
  have hfits := h.fits p
  have hnodup := h.nodup
  have hnone : c.handles p = none := by
    by_contra hsome
    obtain ⟨e, he⟩ := Option.ne_none_iff_exists'.mp hsome
    exact absurd (h.handle he).1 (by omega)
  have hnew : p ∉ c.cached := by simp [cached, hp]
  rw [Fits, hnone] at hfits
  obtain ⟨c₁, hc₁⟩ : ∃ c₁, c₁ = c.allocate key (hashSlice key) value charge := ⟨_, rfl⟩
  have h₁ : Consistent hashSlice capacity c₁ (Function.update held p (held p + 1)) c.cached := by
    refine h.change (p := p) ?_ (fun q hq => ?_) ?_ (fun h => absurd h hnew) ?_ ?_
    · rw [hc₁]
      exact ⟨rfl, rfl⟩
    · simp only [hc₁, allocate, ← hp, Function.update_of_ne hq]
      grind
    · simp [Fits, hc₁, allocate, ← hp]
      grind
    · rw [hc₁, allocate]
      grind
    · have hweights : weight (c.handles p) = 0 ∧ weight (c₁.handles p) = charge := by
        simp [weight, hnone, hc₁, allocate, ← hp]
      have := h.usage
      rw [hweights.1, hweights.2, hc₁, allocate]
      simp only
      omega
  have hcached : c₁.cached = Insert.insert p c.cached := by
    ext q
    simp [cached, hc₁, allocate, ← hp]
    grind
  have hentry : c₁.entry p = some (key, hashSlice key) := by simp [entry, hc₁, allocate, ← hp]
  have hpos : c.capacity > 0 := h.capacity_eq ▸ hcapacity
  rcases h₁.table.insert_spec hentry hnew with ⟨hinsert, hfull⟩ | ⟨table, old, hinsert, hold, ht⟩
  · exact .inl ⟨by simp [insert, hpos, ← hp, ← hc₁, hinsert], hfull⟩
  · have hset : Insert.insert p (c.cached.filter fun q => old ≠ some q) =
        c₁.cached.filter fun q => old ≠ some q := by grind
    rw [hset] at ht
    have h₂ : Consistent hashSlice capacity { c₁ with table := table } _ _ :=
      ⟨h₁.capacity_eq, ht, h₁.usage, h₁.nodup, h₁.fits⟩
    obtain ⟨c₃, hfinish, h₃, -⟩ := h₂.finishErase_spec fun q hq =>
      hcached ▸ Finset.mem_insert_of_mem ((hold q).mp hq).1
    obtain ⟨c', hloop, h', hend⟩ := h₃.evictLoop_spec (fun c => c.usage > c.capacity) c₃.card_cached
    refine .inr ⟨c', p, by simp [insert, hpos, ← hp, ← hc₁, hinsert, hfinish, hloop], h', ?_⟩
    rw [← h'.capacity_eq]
    simpa using hend

end LRUCache

/-! ## Runs -/

/-- The calls of the clients. -/
inductive Op (V : Type)
  | insert (key : Slice) (value : V) (charge : ℕ)
  | lookup (key : Slice)
  | release (p : ℕ)
  | erase (key : Slice)
  | prune

/-- The cache, and how many handles to each entry the clients hold. -/
structure World (V : Type) where
  cache : LRUCache V
  held : ℕ → ℕ

section Runs

variable {V : Type} (hashSlice : Slice → ℕ)

/-- A new cache, and clients that hold nothing. -/
def start (capacity : ℕ) : Option (World V) :=
  (LRUCache.new capacity).map fun c => ⟨c, fun _ => 0⟩

/-- The client holds one more handle. -/
def hold (held : ℕ → ℕ) (p : ℕ) : ℕ → ℕ := Function.update held p (held p + 1)

/-- A call; the hash is a function of the key. -/
def step (w : World V) : Op V → Option (World V)
  | .insert key value charge =>
    (w.cache.insert key (hashSlice key) value charge).map fun r => ⟨r.1, hold w.held r.2⟩
  | .lookup key =>
    (w.cache.lookup key (hashSlice key)).map fun r => ⟨r.1, r.2.elim w.held (hold w.held)⟩
  | .release p =>
    (w.cache.release p).map fun c => ⟨c, Function.update w.held p (w.held p - 1)⟩
  | .erase key => (w.cache.erase key (hashSlice key)).map fun c => ⟨c, w.held⟩
  | .prune => w.cache.prune.map fun c => ⟨c, w.held⟩

/-- A charge is a `size_t`, only a handle that is held is released, and the references of an entry
can be counted in a `uint32_t`. -/
def Legal (w : World V) : Op V → Prop
  | .insert _ _ charge => charge < 2 ^ 64
  | .lookup key => ∀ p ∈ (w.cache.table.lookup w.cache.entry key (hashSlice key)).join,
      w.held p + 2 < 2 ^ 32
  | .release p => 0 < w.held p
  | .erase _ => True
  | .prune => True

variable {hashSlice} {capacity : ℕ} {w : World V}

/-- **The invariant**: the cache is consistent, and its table has the entries with `in_cache`
set. -/
def Inv (hashSlice : Slice → ℕ) (capacity : ℕ) (w : World V) : Prop :=
  w.cache.Consistent hashSlice capacity w.held w.cache.cached

/-- **A call keeps the cache consistent.** An `Insert` into a cache with `2^31` entries may not
return. -/
theorem step_spec (hcapacity : 0 < capacity) (h : Inv hashSlice capacity w) {op : Op V}
    (hlegal : Legal hashSlice w op) : step hashSlice w op = none ∧ w.cache.cached.card = 2 ^ 31 ∨
      ∃ w', step hashSlice w op = some w' ∧ Inv hashSlice capacity w' ∧ ∀ key value charge,
        op = .insert key value charge → w'.cache.usage ≤ capacity ∨ w'.cache.lru = [] := by
  cases op with
  | insert key value charge =>
    rcases h.insert_spec hcapacity key value hlegal with
      ⟨hinsert, hfull⟩ | ⟨c, p, hinsert, hc, hend⟩
    · exact .inl ⟨by simp [step, hinsert], hfull⟩
    · exact .inr ⟨⟨c, hold w.held p⟩, by simp [step, hinsert], hc, fun _ _ _ _ => hend⟩
  | lookup key =>
    obtain ⟨r, hlookup, hr⟩ := h.table.lookup_spec key (hashSlice key)
    cases r with
    | none => exact .inr ⟨w, by simp [step, LRUCache.lookup, hlookup], h, by simp⟩
    | some p =>
      obtain ⟨c, href, hc⟩ := h.ref_spec ((hr p).mp rfl).1 (hlegal p (by simp [hlookup]))
      exact .inr ⟨⟨c, hold w.held p⟩, by simp [step, LRUCache.lookup, hlookup, href], hc, by simp⟩
  | release p =>
    obtain ⟨c, hunref, hc, -⟩ := h.unref_spec hlegal
    exact .inr ⟨⟨c, Function.update w.held p (w.held p - 1)⟩,
      by simp [step, LRUCache.release, hunref], hc, by simp⟩
  | erase key =>
    obtain ⟨table, old, c, hremove, -, hfinish, hc, -⟩ := h.remove_spec key (hashSlice key)
    exact .inr ⟨⟨c, w.held⟩, by simp [step, LRUCache.erase, hremove, hfinish], hc, by simp⟩
  | prune =>
    obtain ⟨c, hloop, hc, -⟩ := h.evictLoop_spec (fun _ => true) w.cache.card_cached
    exact .inr ⟨⟨c, w.held⟩, by simp [step, LRUCache.prune, hloop], hc, by simp⟩

theorem start_inv (hashSlice : Slice → ℕ) (capacity : ℕ) :
    ∃ w : World V, start capacity = some w ∧ Inv hashSlice capacity w := by
  obtain ⟨table, hnew, ht⟩ := HandleTable.new_spec fun _ => none
  exact ⟨⟨⟨capacity, 0, [], [], table, fun _ => none, 0, []⟩, fun _ => 0⟩,
    by simp [start, LRUCache.new, hnew], rfl, ht, by simp [LRUCache.cached], by simp,
    fun p => by simp [LRUCache.Fits]⟩

theorem Inv.key_inj (h : Inv hashSlice capacity w) {p q : ℕ} (hp : p ∈ w.cache.cached)
    (hq : q ∈ w.cache.cached)
    (hkey : (w.cache.handles p).map LRUHandle.key = (w.cache.handles q).map LRUHandle.key) :
    p = q := by
  obtain ⟨e, he, -⟩ := h.mem_cached.mp hp
  obtain ⟨e', he', -⟩ := h.mem_cached.mp hq
  have hhash := (h.handle he).2.2.1
  have hhash' := (h.handle he').2.2.1
  refine h.table.keys p hp q hq ?_
  simp_all [LRUCache.entry]

/-- **The cache is consistent in every state that legal calls reach.** No two of its entries have
the same key, and an `Insert` leaves the usage within the capacity or the list `lru_` empty. The
calls return as long as the cache has less than `2^31` entries. -/
theorem lruCache_consistent (hashSlice : Slice → ℕ) {capacity : ℕ} (hcapacity : 0 < capacity) :
    ∃ w₀ : World V, start capacity = some w₀ ∧ ∀ ops,
      (∀ w, Run.Meets (step hashSlice) (Legal hashSlice) w₀ ops →
        Run.runFrom (step hashSlice) w₀ ops = some w →
          Inv hashSlice capacity w ∧
          (∀ p ∈ w.cache.cached, ∀ q ∈ w.cache.cached,
            (w.cache.handles p).map LRUHandle.key = (w.cache.handles q).map LRUHandle.key → p = q) ∧
          ∀ key value charge w', charge < 2 ^ 64 →
            step hashSlice w (.insert key value charge) = some w' →
              w'.cache.usage ≤ capacity ∨ w'.cache.lru = []) ∧
      (Run.Meets (step hashSlice) (fun w op => Legal hashSlice w op ∧ w.cache.cached.card < 2 ^ 31)
          w₀ ops →
        ∃ w, Run.runFrom (step hashSlice) w₀ ops = some w) := by
  obtain ⟨w₀, hstart, h₀⟩ := start_inv (V := V) hashSlice capacity
  refine ⟨w₀, hstart, fun ops => ⟨fun w hlegal hrun => ?_, fun hfew => ?_⟩⟩
  · have h : Inv hashSlice capacity w := by
      refine Run.runFrom_invariant (fun w op w' hw hok hstep => ?_) h₀ hlegal hrun
      rcases step_spec hcapacity hw hok with ⟨hnone, -⟩ | ⟨w'', hstep', hw'', -⟩
      · simp [hnone] at hstep
      · rwa [Option.some.inj (hstep.symm.trans hstep')]
    refine ⟨h, fun p hp q hq => h.key_inj hp hq, fun key value charge w' hcharge hstep => ?_⟩
    have hlegal' : Legal hashSlice w (.insert key value charge) := hcharge
    rcases step_spec hcapacity h hlegal' with ⟨hnone, -⟩ | ⟨w'', hstep', -, hend⟩
    · simp [hnone] at hstep
    · rw [Option.some.inj (hstep.symm.trans hstep')]
      exact hend key value charge rfl
  · have hreturns : ∀ (w : World V) op, Inv hashSlice capacity w →
        Legal hashSlice w op ∧ w.cache.cached.card < 2 ^ 31 →
        ∃ w', step hashSlice w op = some w' ∧ Inv hashSlice capacity w' := by
      intro w op hw hok
      rcases step_spec hcapacity hw hok.1 with ⟨-, hfull⟩ | ⟨w', hstep, hw', -⟩
      · omega
      · exact ⟨w', hstep, hw'⟩
    obtain ⟨w, hrun, -⟩ := Run.runFrom_total hreturns h₀ hfew
    exact ⟨w, hrun⟩

instance (w : World V) (op : Op V) : Decidable (Legal hashSlice w op) :=
  match op with
  | .insert _ _ charge => inferInstanceAs (Decidable (charge < 2 ^ 64))
  | .lookup _ => inferInstanceAs (Decidable (∀ p ∈ Option.join _, w.held p + 2 < 2 ^ 32))
  | .release p => inferInstanceAs (Decidable (0 < w.held p))
  | .erase _ => inferInstanceAs (Decidable True)
  | .prune => inferInstanceAs (Decidable True)

/-- An entry is replaced while it is held, and freed when it is released. -/
theorem lruCache_consistent_replaced :
    ∃ w₀ : World Unit, start 1 = some w₀ ∧ ∃ w,
      Run.runFrom (step fun _ => 0) w₀ [.insert [] () 1, .insert [] () 1, .release 0, .prune] =
        some w ∧ Inv (fun _ => 0) 1 w ∧ w.cache.deleted = [(0, [], ())] := by
  obtain ⟨w₀, hstart, hruns⟩ := lruCache_consistent (V := Unit) (fun _ => 0) Nat.one_pos
  obtain rfl := Option.some.inj hstart
  have hrun := (hruns [.insert [] () 1, .insert [] () 1, .release 0, .prune]).1 _ (by decide) rfl
  exact ⟨_, rfl, _, rfl, hrun.1, rfl⟩

/-- The charges of two entries overflow the usage. -/
theorem usage_overflows :
    ∃ w₀ : World Unit, start 1 = some w₀ ∧ ∃ w,
      Run.runFrom (step fun _ => 0) w₀ [.insert [] () (2 ^ 63), .insert [0] () (2 ^ 63)] = some w ∧
        w.cache.usage = 0 ∧ ∑ p ∈ w.cache.cached, w.cache.charge p = 2 ^ 64 :=
  ⟨_, rfl, _, rfl, by decide, by decide⟩

/-- The cache has one entry, with `refs` references; the clients hold `held`. -/
def Counts (refs held : ℕ) (w : World Unit) : Prop :=
  w.cache.table.list 0 = [0] ∧ w.cache.lru = [] ∧ w.cache.inUse = [0] ∧
    w.cache.handles 0 = some ⟨[], (), 1, 0, true, refs⟩ ∧ w.held 0 = held

theorem Counts.lookups (n : ℕ) {refs held : ℕ} {w : World Unit}
    (h : Counts (refs % 2 ^ 32) held w) :
    ∃ w', Run.runFrom (step fun _ => 0) w (List.replicate n (.lookup [])) = some w' ∧
      Counts ((refs + n) % 2 ^ 32) (held + n) w' := by
  induction n generalizing refs held w with
  | zero => exact ⟨w, rfl, h⟩
  | succ n ih =>
    obtain ⟨w', hstep, h'⟩ : ∃ w', step (fun _ => 0) w (.lookup []) = some w' ∧
        Counts ((refs + 1) % 2 ^ 32) (held + 1) w' := by
      obtain ⟨hlist, hlru, huse, hentry, hheld⟩ := h
      -- an entry whose count has come to `1` again leaves its list and comes back to it
      by_cases hone : refs % 2 ^ 32 = 1 <;>
        simp [step, LRUCache.lookup, HandleTable.lookup, HandleTable.findPointer, HandleTable.index,
          HandleTable.findLoop, LRUCache.entry, LRUCache.ref, LRUCache.lruRemove, Counts, hold, *]
    obtain ⟨w'', hrun, h''⟩ := ih h'
    rw [List.replicate_succ, Run.runFrom_cons, hstep]
    exact ⟨w'', hrun, by rwa [Nat.add_right_comm, Nat.add_right_comm held] at h''⟩

/-- **The references are counted modulo `2^32`.** After `2^32 - 2` calls of `Lookup` the clients
hold `2^32 - 1` references, and `refs` is `0`. -/
theorem refs_of_lookups (n : ℕ) : ∃ w₀ : World Unit, start 1 = some w₀ ∧ ∃ w,
    Run.runFrom (step fun _ => 0) w₀ (.insert [] () 1 :: List.replicate n (.lookup [])) = some w ∧
      Counts ((2 + n) % 2 ^ 32) (1 + n) w :=
  ⟨_, rfl, Counts.lookups n ⟨rfl, rfl, rfl, rfl, rfl⟩⟩

end Runs

end McfKv.Cache
