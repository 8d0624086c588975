import McfKv.Index.CuckooRehash
import McfKv.Index.FFBtreeInsert
import McfKv.Lib.Run

/-!
# The index (`multi-cuckoo-index/multi_cuckoo_index.cc`)

A key lives in one of the cuckoo filters, or in the tree when another key of its class
already has the slot. `Get` and `Update` look at the tree first.

An `Insert` that finds its filter rehashing, or that has to start a rehash, returns
`NotSupported` and is tried again; the entry may then be in the filter already, and the
second attempt puts it into the tree as well. A step of a run is one attempt, or the
completion of a rehash that is pending. `World.expected` is the map that the calls which
returned `OK` stand for.

The map is right as long as three things do not happen (`Harmless`): a walk of `AddImpl`
that drops a slot of another key, a rehash that loses a slot, and a rehash thread beyond
the end of `thread_`. `reads_of_harmless` is the run theorem, and
`failed_insert_drops_key` a run in which a failed `Insert` drops a key inserted before.
-/

namespace McfKv.Cuckoo.Filter

/-! ## Filters as maps -/

/-- **A filter in order** with more than one bucket stands for a map from classes to file
numbers. -/
structure Ok (f : Filter) (M : ℕ → Option ℕ) : Prop where
  reachable : Reachable f
  large : f.numBuckets ≠ 1
  contain : ∀ c < 2 ^ 32, f.contain c = M c

theorem new_ok : (new maxNumKeys).Ok fun _ => none where
  reachable := .new _ (by decide)
  large := by decide
  contain c hc := by
    obtain ⟨E, hf⟩ := (Reachable.new maxNumKeys (by decide)).inOrder
    exact hf.contain_of_free (fun _ => rfl) hc

variable {f : Filter} {M : ℕ → Option ℕ} {h file : ℕ}

theorem Ok.set {f' : Filter} {E : ℕ} (hf : f.Ok M) (hord : f.InOrder E) (hf' : Reachable f')
    (hsize : f'.numBuckets = f.numBuckets) (hnew : f'.contain h = some file ∧
      ∀ c < 2 ^ 32, ¬ Same (min E 32) c h → f'.contain c = f.contain c) :
    f'.Ok (Function.update M h (some file)) := by
  refine ⟨hf', hsize ▸ hf.large, fun c hc => ?_⟩
  rcases eq_or_ne c h with rfl | hne
  · rw [Function.update_self, hnew.1]
  · rw [Function.update_of_ne hne, ← hf.contain c hc]
    exact hnew.2 c hc fun hsame => hne (hsame.eq (hord.min_ne_zero hf.large))

/-- **`Update` changes the file number of the class.** -/
theorem Ok.update (hf : f.Ok M) (hh : h < 2 ^ 32) (hM : M h ≠ none) (hfile : file < 2 ^ 32) :
    (f.update h file).Ok (Function.update M h (some file)) := by
  obtain ⟨E, hord⟩ := hf.reachable.inOrder
  refine hf.set hord (.update h file hh hfile hf.reachable) ?_ (hord.contain_update hh hfile ?_)
  · rw [(hord.update hh hfile).numBuckets, hord.numBuckets]
  · rwa [hf.contain h hh]

variable (rand : ℕ → ℕ)

/-- **`Add` of a class that the filter lacks** adds it, or fails and changes nothing, if its
walk ends well. -/
theorem Ok.add (hf : f.Ok M) (hh : h < 2 ^ 32) (hM : M h = none) (hfile : file < 2 ^ 32)
    (draws : ℕ) (hends : f.AddEnds rand draws h file) :
    ∃ f' draws', f'.isRehashing = f.isRehashing ∧
      ((f.add rand draws h file = (.ok, f', draws') ∧ f'.Ok (Function.update M h (some file))) ∨
        (f.add rand draws h file = (.ioError "failed to insert!", f', draws') ∧ f'.Ok M)) := by
  obtain ⟨E, hord⟩ := hf.reachable.inOrder
  have hnew := hord.not_seen hh ((hf.contain h hh).trans hM)
  have hreach := Reachable.add rand draws h file hh hfile hf.reachable
  have hord' := hord.add rand draws hh hfile
  have hflag : (f.add rand draws h file).2.1.isRehashing = f.isRehashing := rfl
  unfold AddEnds at hends
  rw [hord.numBuckets, walkEnds_clip, indexHash_clip hh] at hends
  rcases hord.addImpl_ends rand draws hh (slotOf_div hfile) hnew with
    ⟨T', draws', hres, hfound, -⟩ |
    ⟨T', draws', c', i', slot', hres, -, hi', hfp', hgone, hfound, hwalk⟩
  · have heq : f.add rand draws h file = _ := hord.addImpl_eq rand draws hh hres
    rw [heq] at hreach hord' hflag ⊢
    refine ⟨_, _, hflag, Or.inl ⟨rfl, hf.set hord hreach rfl ?_⟩⟩
    exact hord.contain_of_added hord' hh (slotOf_mod hfile) hfound
  · have heq : f.add rand draws h file = _ := hord.addImpl_eq rand draws hh hres
    rw [heq] at hreach hord' hflag ⊢
    -- what is dropped is the new slot
    have hown := (hord.ownSlot_iff hh hfile hi' hfp').mp ((hwalk _).mp hends)
    refine ⟨_, _, hflag, Or.inr ⟨rfl, hreach, hf.large, fun c hc => ?_⟩⟩
    rw [← hf.contain c hc]
    exact hord.contain_of_dropped hord' hnew hgone hown.1 hfound hc

/-- **`Rehash` keeps the map.** -/
theorem Ok.rehash (hf : f.Ok M) (draws : ℕ) (hends : f.RehashEnds rand draws) :
    ∃ f' draws', f.rehash rand draws = some (f', draws') ∧ f'.Ok M := by
  obtain ⟨hsize, hclass, hmoves⟩ := hends
  obtain ⟨E, hord⟩ := hf.reachable.inOrder
  have hmod : f.numBuckets % 2 ^ 32 = f.numBuckets := Nat.mod_eq_of_lt (by omega)
  have hE : E < 32 := by
    rw [hord.numBuckets] at hsize
    exact ((Nat.pow_lt_pow_iff_right (by decide)).mp hsize).trans (by decide)
  have hre := rehash_eq rand (f := f) (by omega) draws
  obtain ⟨E', hgrown, hf', hloop⟩ := hord.rehash rand hre
  have hkeeps := hord.keepsLookups_iff_transfers rand hf.reachable.counted hE hgrown hf'
    (Or.inr hclass) hloop
  rw [← hmod] at hmoves
  refine ⟨_, _, hre, .rehash rand draws _ hf.reachable hre, fun hone => hf.large ?_, fun c hc => ?_⟩
  · rw [hf'.numBuckets, ← hgrown.numBuckets] at hone
    rw [hord.numBuckets, hord.eq_zero_of_grown hE hone, pow_zero]
  · rw [hkeeps.mpr hmoves c hc, hf.contain c hc]

end McfKv.Cuckoo.Filter

namespace McfKv.Mci

open Btree Cuckoo Run

/-- What the index is given: the number of filters, their hash functions, the results of
`rand()`, and the addresses of the pages of the tree. -/
structure Params where
  num : ℕ
  hasher : ℕ → ℕ → ℕ
  rand : ℕ → ℕ
  alloc : ℕ → Addr

/-- `class MultiCuckooIndex`, with the `IndexMeta` objects in the heap and the number of
draws made. -/
structure Index where
  filters : ℕ → Filter
  tree : Tree
  metas : Addr → ℕ
  draws : ℕ

section Calls

variable (P : Params)

/-- `MultiCuckooIndex::MultiCuckooIndex`. -/
def Index.new : Index where
  filters := fun _ => Filter.new Filter.maxNumKeys
  tree := Tree.new P.alloc
  metas := fun _ => 0
  draws := 0

/-- The filter of a key. -/
def cfNo (key : ℕ) : ℕ := if P.num = 1 then 0 else key % (P.num - 1) % 2 ^ 32

/-- The upper half of the 64-bit hash of a key in its filter. -/
def hashHigh (key : ℕ) : ℕ := P.hasher (cfNo P key) key % 2 ^ 64 / 2 ^ 32

theorem hashHigh_lt (key : ℕ) : hashHigh P key < 2 ^ 32 :=
  Nat.div_lt_of_lt_mul (Nat.mod_lt _ (by decide))

/-- Put an `IndexMeta` at the address that `pmalloc` returned into the tree. -/
def Index.insertTree (x : Index) (key file : ℕ) (ptr : Addr) : Option (Status × Index) :=
  (x.tree.insert P.alloc key ptr).map fun r =>
    (.ok, { x with tree := r.1, metas := Function.update x.metas ptr file })

/-- `MultiCuckooIndex::Insert`. Starting a rehash writes `thread_[cf_no + 1]`, and there
are 17 threads. -/
def Index.insert (x : Index) (key file : ℕ) (ptr : Addr) : Option (Status × Index) :=
  let cf := cfNo P key
  let f := x.filters cf
  if f.isRehashing then some (.notSupported "CF is Rehashing now\n", x)
  else if (f.contain (hashHigh P key)).isSome then x.insertTree P key file ptr
  else
    let added := f.add P.rand x.draws (hashHigh P key) file
    let f' := added.2.1
    let x' := { x with draws := added.2.2 }
    if (!added.1.isOk || f'.overloaded) && !f'.isRehashing then
      if cf + 1 < 17 then
        some (.notSupported "we need to start rehash now",
          { x' with filters := Function.update x.filters cf { f' with isRehashing := true } })
      else none
    else some (.ok, { x' with filters := Function.update x.filters cf f' })

/-- `MultiCuckooIndex::Update`. The assertions that the key is found do nothing in a
release build. -/
def Index.update (x : Index) (key file : ℕ) (ptr : Addr) : Option (Status × Index) :=
  (x.tree.search key).bind fun res =>
    if res ≠ 0 then x.insertTree P key file ptr
    else
      let cf := cfNo P key
      let f := x.filters cf
      if f.isRehashing then some (.notSupported "is rehashing", x)
      else
        some (.ok,
          { x with filters := Function.update x.filters cf (f.update (hashHigh P key) file) })

/-- `MultiCuckooIndex::Get`; the result for a key that is not found is `-1` as a `uint32_t`. -/
def Index.get (x : Index) (key : Slice) : Option ℕ :=
  let target := Coding.fastAtoi key
  (x.tree.search target).map fun res =>
    if res ≠ 0 then x.metas res
    else ((x.filters (cfNo P target)).contain (hashHigh P target)).getD (2 ^ 32 - 1)

/-! ## Runs -/

/-- The index, and the file number of the last call for each key that returned `OK`. -/
structure World where
  index : Index
  expected : ℕ → Option ℕ

/-- One attempt of a call, with the address that `pmalloc` returns if it is called, or the
completion of a rehash. -/
inductive Op where
  | insert (key file : ℕ) (ptr : Addr)
  | update (key file : ℕ) (ptr : Addr)
  | rehash (cf : ℕ)

def World.init : World := ⟨Index.new P, fun _ => none⟩

/-- The world after a call on a key has returned. -/
def World.returned (w : World) (key file : ℕ) (r : Status × Index) : World where
  index := r.2
  expected := if r.1.isOk then Function.update w.expected key (some file) else w.expected

/-- One step of a run. -/
def step (w : World) : Op → Option World
  | .insert key file ptr => (w.index.insert P key file ptr).map (w.returned key file)
  | .update key file ptr => (w.index.update P key file ptr).map (w.returned key file)
  | .rehash cf =>
    if (w.index.filters cf).isRehashing then
      ((w.index.filters cf).rehash P.rand w.index.draws).map fun r =>
        { w with index :=
          { w.index with filters := Function.update w.index.filters cf r.1, draws := r.2 } }
    else some w

/-- Every key inserted so far reads the file number of its last call. -/
def World.Reads (w : World) : Prop :=
  ∀ key file, w.expected key = some file →
    w.index.get P (Coding.decimalText key) = some file

/-- What `pmalloc` promises: an address that is not in use. -/
def World.Fresh (w : World) (ptr : Addr) : Prop :=
  ptr ≠ 0 ∧ (∀ i, P.alloc i ≠ ptr) ∧ ∀ key, w.index.tree.search key ≠ some ptr

/-- What the callers promise: 64-bit keys and 32-bit file numbers, and updates only of keys
inserted before. -/
def World.Promised (w : World) : Op → Prop
  | .insert key file ptr => key < 2 ^ 64 ∧ file < 2 ^ 32 ∧ w.Fresh P ptr
  | .update key file ptr => w.expected key ≠ none ∧ file < 2 ^ 32 ∧ w.Fresh P ptr
  | .rehash _ => True

/-- **When a step does no harm.** An `Insert` that gets as far as `Add` has a thread for a
rehash, and its walk finds room or ends with its own slot in hand; a rehash keeps every
slot. The source indexes `thread_` only when it starts a rehash; here every such `Insert` must
have a thread, as one of them may start it. -/
def World.Harmless (w : World) : Op → Prop
  | .insert key file _ =>
    (w.index.filters (cfNo P key)).isRehashing = false →
    (w.index.filters (cfNo P key)).contain (hashHigh P key) = none →
      cfNo P key + 1 < 17 ∧
        (w.index.filters (cfNo P key)).AddEnds P.rand w.index.draws (hashHigh P key) file
  | .update _ _ _ => True
  | .rehash cf =>
    (w.index.filters cf).isRehashing = true →
      (w.index.filters cf).RehashEnds P.rand w.index.draws

end Calls

/-! ## The invariant -/

/-- The tree stores pointers that are pairwise distinct and not the addresses of pages. -/
structure TreeOk (alloc : ℕ → Addr) (t : Tree) (ptrs : ℕ → Option Addr) : Prop where
  rep : ∃ S, Rep alloc t S .tight ∧ S.Top ∧ S.map = ptrs
  nonnull : ∀ k q, ptrs k = some q → q ≠ 0
  distinct : ∀ k k' q, ptrs k = some q → ptrs k' = some q → k = k'
  notPage : ∀ k q, ptrs k = some q → ∀ i, alloc i ≠ q

section TreeOk

variable {alloc : ℕ → Addr} {t : Tree} {ptrs : ℕ → Option Addr}

theorem TreeOk.search (h : TreeOk alloc t ptrs) (k : ℕ) : t.search k = some ((ptrs k).getD 0) := by
  obtain ⟨S, hrep, htop, rfl⟩ := h.rep
  refine hrep.search htop (Slack.complete_tight 0) h.distinct (fun x y l lo hy ha => ?_) k
  obtain ⟨i, -, hi⟩ := hrep.used l lo y ha
  exact h.notPage x y hy i hi

theorem TreeOk.not_stored (h : TreeOk alloc t ptrs) {ptr : Addr}
    (hfresh : ∀ key, t.search key ≠ some ptr) (k : ℕ) : ptrs k ≠ some ptr := by
  intro hk
  apply hfresh k
  rw [h.search, hk]
  rfl

theorem TreeOk.insert (h : TreeOk alloc t ptrs) (halloc : Function.Injective alloc)
    (hnull : ∀ i, alloc i ≠ 0) (k : ℕ) {ptr : Addr} (hptr : ptr ≠ 0)
    (hpage : ∀ i, alloc i ≠ ptr) (hstored : ∀ k, ptrs k ≠ some ptr) :
    ∃ t' old, t.insert alloc k ptr = some (t', old) ∧
      TreeOk alloc t' (Function.update ptrs k (some ptr)) := by
  obtain ⟨S, hrep, htop, rfl⟩ := h.rep
  obtain ⟨t', old, S', heq, hrep', htop', hmap⟩ :=
    hrep.insert (Slack.complete_tight 0) htop halloc hnull k hptr
  have hcases : ∀ x q, Function.update S.map k (some ptr) x = some q →
      (x = k ∧ q = ptr) ∨ (x ≠ k ∧ S.map x = some q) := by
    intro x q hx
    by_cases hxk : x = k
    · subst hxk
      rw [Function.update_self] at hx
      exact Or.inl ⟨rfl, (Option.some.inj hx).symm⟩
    · rw [Function.update_of_ne hxk] at hx
      exact Or.inr ⟨hxk, hx⟩
  refine ⟨t', old, heq, ⟨S', hrep', htop', hmap⟩, ?_, ?_, ?_⟩
  · intro x q hx
    rcases hcases x q hx with ⟨-, rfl⟩ | ⟨-, hx⟩
    · exact hptr
    · exact h.nonnull x q hx
  · intro x x' q hx hx'
    rcases hcases x q hx with ⟨rfl, rfl⟩ | ⟨-, hold⟩ <;>
      rcases hcases x' q hx' with ⟨rfl, hq⟩ | ⟨-, hold'⟩
    · rfl
    · exact absurd hold' (hstored x')
    · exact absurd (hq ▸ hold) (hstored x)
    · exact h.distinct x x' q hold hold'
  · intro x q hx
    rcases hcases x q hx with ⟨-, rfl⟩ | ⟨-, hx⟩
    · exact hpage
    · exact h.notPage x q hx

end TreeOk

/-- **Who owns what.** `ptrs` is the map of the tree and `M cf` the map of a filter. Every
key inserted has a slot of its class in its filter; a key in the tree reads from there;
and the slot of a class belongs to the one key of the class, if any, that is not in the
tree. -/
structure Inv (P : Params) (w : World) (ptrs : ℕ → Option Addr) (M : ℕ → ℕ → Option ℕ) :
    Prop where
  tree : TreeOk P.alloc w.index.tree ptrs
  filters : ∀ cf, (w.index.filters cf).Ok (M cf)
  small : ∀ key, w.expected key ≠ none → key < 2 ^ 64
  present : ∀ key, w.expected key ≠ none → M (cfNo P key) (hashHigh P key) ≠ none
  inTree : ∀ key q, ptrs key = some q → w.expected key = some (w.index.metas q)
  inFilter : ∀ key file, ptrs key = none → w.expected key = some file →
    M (cfNo P key) (hashHigh P key) = some file
  alone : ∀ key key', ptrs key = none → ptrs key' = none →
    w.expected key ≠ none → w.expected key' ≠ none →
    cfNo P key = cfNo P key' → hashHigh P key = hashHigh P key' → key = key'

section Steps

variable {P : Params} {w : World} {ptrs : ℕ → Option Addr} {M : ℕ → ℕ → Option ℕ}

variable {file key : ℕ} {ptr : Addr} {f : Filter}

theorem Inv.get (h : Inv P w ptrs M) {key : Slice}
    (hkey : w.expected (Coding.fastAtoi key) = some file) : w.index.get P key = some file := by
  unfold Index.get
  dsimp only
  rw [h.tree.search, Option.map_some]
  cases hptr : ptrs (Coding.fastAtoi key) with
  | some q =>
    have hq : q ≠ 0 := h.tree.nonnull _ q hptr
    have hmeta : w.index.metas q = file :=
      Option.some.inj ((h.inTree _ q hptr).symm.trans hkey)
    simp [hq, hmeta]
  | none =>
    have hf := h.filters (cfNo P (Coding.fastAtoi key))
    simp [hf.contain _ (hashHigh_lt P _), h.inFilter _ file hptr hkey]

theorem Inv.reads (h : Inv P w ptrs M) : w.Reads P := by
  intro key file hkey
  refine h.get ?_
  rw [Coding.fastAtoi_decimalText (h.small key (by simp [hkey])), hkey]

theorem init_inv (hnull : ∀ i, P.alloc i ≠ 0) :
    Inv P (World.init P) (fun _ => none) fun _ _ => none where
  tree := ⟨⟨_, (Rep.new hnull).1, (Rep.new hnull).2, rfl⟩, by simp, by simp, by simp⟩
  filters _ := Filter.new_ok
  small _ h := absurd rfl h
  present _ h := absurd rfl h
  inTree _ _ h := absurd h (by simp)
  inFilter _ _ _ h := absurd h (by simp [World.init])
  alone _ _ _ _ h := absurd rfl h

/-- **Storing a key in the tree.** Its class has a slot already. -/
theorem Inv.insertTree (h : Inv P w ptrs M) (halloc : Function.Injective P.alloc)
    (hnull : ∀ i, P.alloc i ≠ 0) (file : ℕ) (hkey : key < 2 ^ 64) (hfresh : w.Fresh P ptr)
    (hslot : M (cfNo P key) (hashHigh P key) ≠ none) :
    ∃ w', (w.index.insertTree P key file ptr).map (w.returned key file) = some w' ∧
      Inv P w' (Function.update ptrs key (some ptr)) M := by
  have hstored := h.tree.not_stored hfresh.2.2
  obtain ⟨t', old, heq, htree⟩ :=
    h.tree.insert halloc hnull key hfresh.1 hfresh.2.1 hstored
  refine ⟨_, by rw [Index.insertTree, heq]; rfl, ?_⟩
  -- only the key changes, both in the tree and in the expected map
  have hexpected : ∀ x, x ≠ key →
      Function.update w.expected key (some file) x = w.expected x := fun x hx =>
    Function.update_of_ne hx ..
  have hnone : ∀ x, Function.update ptrs key (some ptr) x = none → x ≠ key ∧ ptrs x = none := by
    intro x hx
    by_cases hxk : x = key
    · simp [hxk] at hx
    · exact ⟨hxk, by rwa [Function.update_of_ne hxk] at hx⟩
  refine ⟨htree, h.filters, fun x hx => ?_, fun x hx => ?_, fun x q hx => ?_,
    fun x v hx hv => ?_, fun x x' hx hx' hv hv' => ?_⟩
  · by_cases hxk : x = key
    · exact hxk ▸ hkey
    · exact h.small x (hexpected x hxk ▸ hx)
  · by_cases hxk : x = key
    · exact hxk ▸ hslot
    · exact h.present x (hexpected x hxk ▸ hx)
  · change Function.update w.expected key (some file) x =
      some (Function.update w.index.metas ptr file q)
    by_cases hxk : x = key
    · subst hxk
      rw [Function.update_self] at hx
      rw [← Option.some.inj hx, Function.update_self, Function.update_self]
    · rw [Function.update_of_ne hxk] at hx
      have hq : q ≠ ptr := by
        rintro rfl
        exact hstored x hx
      rw [hexpected x hxk, Function.update_of_ne hq]
      exact h.inTree x q hx
  · obtain ⟨hxk, hx⟩ := hnone x hx
    exact h.inFilter x v hx ((hexpected x hxk).symm.trans hv)
  · obtain ⟨hxk, hx⟩ := hnone x hx
    obtain ⟨hxk', hx'⟩ := hnone x' hx'
    exact h.alone x x' hx hx' (hexpected x hxk ▸ hv) (hexpected x' hxk' ▸ hv')

/-- **A filter that gains slots.** The expected map stays as it is. -/
theorem Inv.setFilter (h : Inv P w ptrs M) (cf : ℕ) {N : ℕ → Option ℕ} (hf : f.Ok N)
    (hN : ∀ c, M cf c ≠ none → N c = M cf c) (draws : ℕ) : Inv P { w with index :=
        { w.index with filters := Function.update w.index.filters cf f, draws := draws } }
      ptrs (Function.update M cf N) := by
  have hkeep : ∀ key, M (cfNo P key) (hashHigh P key) ≠ none →
      Function.update M cf N (cfNo P key) (hashHigh P key) = M (cfNo P key) (hashHigh P key) := by
    intro key hkey
    by_cases hcf : cfNo P key = cf
    · rw [hcf] at hkey ⊢
      rw [Function.update_self, hN _ hkey]
    · rw [Function.update_of_ne hcf]
  refine ⟨h.tree, fun cf' => ?_, h.small, fun key hkey => ?_, h.inTree,
    fun key file hptr hkey => ?_, h.alone⟩
  · by_cases hcf : cf' = cf
    · subst hcf
      simpa using hf
    · simpa [Function.update_of_ne hcf] using h.filters cf'
  · rw [hkeep key (h.present key hkey)]
    exact h.present key hkey
  · have hold := h.inFilter key file hptr hkey
    rw [hkeep key (by simp [hold]), hold]

/-- **A slot that gets a new owner or a new value.** No other key outside the tree reads
from it. -/
theorem Inv.setSlot (h : Inv P w ptrs M) (hkey : key < 2 ^ 64)
    (hf : f.Ok (Function.update (M (cfNo P key)) (hashHigh P key) (some file)))
    (hptr : ptrs key = none)
    (hown : ∀ x, ptrs x = none → w.expected x ≠ none → cfNo P x = cfNo P key →
      hashHigh P x = hashHigh P key → x = key) (draws : ℕ) :
    Inv P
      { index := { w.index with
          filters := Function.update w.index.filters (cfNo P key) f, draws := draws }
        expected := Function.update w.expected key (some file) }
      ptrs
      (Function.update M (cfNo P key)
        (Function.update (M (cfNo P key)) (hashHigh P key) (some file))) := by
  have hhere : ∀ x, cfNo P x = cfNo P key → hashHigh P x = hashHigh P key →
      Function.update M (cfNo P key)
        (Function.update (M (cfNo P key)) (hashHigh P key) (some file)) (cfNo P x)
        (hashHigh P x) = some file := by
    intro x hcf hh
    rw [hcf, hh, Function.update_self, Function.update_self]
  have hthere : ∀ x, ¬(cfNo P x = cfNo P key ∧ hashHigh P x = hashHigh P key) →
      Function.update M (cfNo P key)
        (Function.update (M (cfNo P key)) (hashHigh P key) (some file)) (cfNo P x)
        (hashHigh P x) = M (cfNo P x) (hashHigh P x) := by
    intro x hx
    by_cases hcf : cfNo P x = cfNo P key
    · rw [hcf, Function.update_self, Function.update_of_ne fun hh => hx ⟨hcf, hh⟩]
    · rw [Function.update_of_ne hcf]
  have hinserted : ∀ x, x ≠ key → Function.update w.expected key (some file) x ≠ none →
      w.expected x ≠ none := fun x hx hv => by rwa [Function.update_of_ne hx] at hv
  refine ⟨h.tree, fun cf' => ?_, fun x hx => ?_, fun x hx => ?_, fun x q hx => ?_,
    fun x v hx hv => ?_, fun x x' hx hx' hv hv' hcf hh => ?_⟩
  · by_cases hcf : cf' = cfNo P key
    · subst hcf
      simpa using hf
    · simpa [Function.update_of_ne hcf] using h.filters cf'
  · by_cases hxk : x = key
    · exact hxk ▸ hkey
    · exact h.small x (hinserted x hxk hx)
  · by_cases hsame : cfNo P x = cfNo P key ∧ hashHigh P x = hashHigh P key
    · rw [hhere x hsame.1 hsame.2]
      simp
    · rw [hthere x hsame]
      refine h.present x (hinserted x ?_ hx)
      rintro rfl
      exact hsame ⟨rfl, rfl⟩
  · have hxk : x ≠ key := by
      rintro rfl
      exact absurd (hptr.symm.trans hx) (by simp)
    change Function.update w.expected key (some file) x = _
    rw [Function.update_of_ne hxk]
    exact h.inTree x q hx
  · change Function.update w.expected key (some file) x = some v at hv
    by_cases hxk : x = key
    · subst hxk
      rw [Function.update_self] at hv
      rw [hhere x rfl rfl, Option.some.inj hv]
    · have hnot : ¬(cfNo P x = cfNo P key ∧ hashHigh P x = hashHigh P key) := fun hs =>
        hxk (hown x hx (hinserted x hxk (by simp [hv])) hs.1 hs.2)
      rw [Function.update_of_ne hxk] at hv
      rw [hthere x hnot]
      exact h.inFilter x v hx hv
  · by_cases hxk : x = key <;> by_cases hxk' : x' = key
    · exact hxk.trans hxk'.symm
    · subst hxk
      exact (hown x' hx' (hinserted x' hxk' hv') hcf.symm hh.symm).symm
    · subst hxk'
      exact hown x hx (hinserted x hxk hv) hcf hh
    · exact h.alone x x' hx hx' (hinserted x hxk hv) (hinserted x' hxk' hv') hcf hh

section

variable (halloc : Function.Injective P.alloc) (hnull : ∀ i, P.alloc i ≠ 0) (h : Inv P w ptrs M)

include halloc hnull h

theorem insert_inv (hpromise : w.Promised P (.insert key file ptr))
    (hharmless : w.Harmless P (.insert key file ptr)) :
    ∃ w' ptrs' M', step P w (.insert key file ptr) = some w' ∧ Inv P w' ptrs' M' := by
  obtain ⟨hkey, hfile, hfresh⟩ := hpromise
  have hf := h.filters (cfNo P key)
  have hcontain := hf.contain _ (hashHigh_lt P key)
  unfold step Index.insert
  dsimp only
  by_cases hre : (w.index.filters (cfNo P key)).isRehashing = true
  · rw [if_pos hre]
    exact ⟨w, ptrs, M, rfl, h⟩
  · rw [if_neg hre]
    rw [Bool.not_eq_true] at hre
    cases hslot : M (cfNo P key) (hashHigh P key) with
    | some v =>
      obtain ⟨w', hstep, hinv⟩ :=
        h.insertTree halloc hnull file hkey hfresh (by simp [hslot])
      exact ⟨w', _, _, by rw [hcontain, hslot]; exact hstep, hinv⟩
    | none =>
      -- no key of this class has been inserted
      have hnokey : ∀ x, cfNo P x = cfNo P key → hashHigh P x = hashHigh P key →
          w.expected x = none := by
        intro x hcf hh
        by_contra hx
        exact h.present x hx (by rw [hcf, hh, hslot])
      obtain ⟨hthread, hends⟩ := hharmless hre (hcontain.trans hslot)
      obtain ⟨f', draws', hre', hadd⟩ :=
        hf.add P.rand (hashHigh_lt P key) hslot hfile w.index.draws hends
      rw [hcontain, hslot, if_neg (by simp)]
      rcases hadd with ⟨heq, hf'⟩ | ⟨heq, hf'⟩
      · rw [heq]
        dsimp only
        rw [hre', hre]
        by_cases hload : f'.overloaded = true
        · -- the slot is in the filter, but the call has to be tried again
          rw [if_pos (by simp [hload]), if_pos hthread]
          refine ⟨_, _, _, rfl, h.setFilter (cfNo P key) (f := { f' with isRehashing := true })
            ⟨hf'.reachable.setRehash true, hf'.large, hf'.contain⟩
            (fun c hc => Function.update_of_ne ?_ ..) draws'⟩
          rintro rfl
          exact hc hslot
        · rw [if_neg (by simp [Status.isOk, hload])]
          refine ⟨_, _, _, rfl, h.setSlot hkey hf' ?_ ?_ draws'⟩
          · cases hptr : ptrs key with
            | none => rfl
            | some q =>
              have hsome := h.inTree key q hptr
              rw [hnokey key rfl rfl] at hsome
              exact absurd hsome (by simp)
          · exact fun x _ hx hcf hh => absurd (hnokey x hcf hh) hx
      · -- the walk has dropped the new slot
        rw [heq]
        dsimp only
        rw [hre', hre, if_pos (by simp [Status.isOk]), if_pos hthread]
        exact ⟨_, _, _, rfl, h.setFilter (cfNo P key) (f := { f' with isRehashing := true })
          ⟨hf'.reachable.setRehash true, hf'.large, hf'.contain⟩ (fun c _ => rfl) draws'⟩

theorem update_inv (hpromise : w.Promised P (.update key file ptr)) :
    ∃ w' ptrs' M', step P w (.update key file ptr) = some w' ∧ Inv P w' ptrs' M' := by
  obtain ⟨hkey, hfile, hfresh⟩ := hpromise
  have hslot := h.present key hkey
  unfold step Index.update
  dsimp only
  rw [h.tree.search key, Option.bind_some]
  cases hptr : ptrs key with
  | some q =>
    obtain ⟨w', hstep, hinv⟩ :=
      h.insertTree halloc hnull file (h.small key hkey) hfresh hslot
    refine ⟨w', _, _, ?_, hinv⟩
    rw [Option.getD_some, if_pos (h.tree.nonnull key q hptr)]
    exact hstep
  | none =>
    have hf := h.filters (cfNo P key)
    rw [Option.getD_none, if_neg (by simp)]
    by_cases hre : (w.index.filters (cfNo P key)).isRehashing = true
    · rw [if_pos hre]
      exact ⟨w, ptrs, M, rfl, h⟩
    · rw [if_neg hre]
      exact ⟨_, _, _, rfl, h.setSlot (h.small key hkey)
        (hf.update (hashHigh_lt P key) hslot hfile) hptr
        (fun x hx hv hcf hh => h.alone x key hx hptr hv hkey hcf hh) w.index.draws⟩

end

theorem rehash_inv (h : Inv P w ptrs M) {cf : ℕ} (hharmless : w.Harmless P (.rehash cf)) :
    ∃ w' ptrs' M', step P w (.rehash cf) = some w' ∧ Inv P w' ptrs' M' := by
  unfold step
  dsimp only
  by_cases hre : (w.index.filters cf).isRehashing = true
  · have hf := h.filters cf
    obtain ⟨f', draws', heq, hf'⟩ := hf.rehash P.rand w.index.draws (hharmless hre)
    rw [if_pos hre, heq]
    exact ⟨_, _, _, rfl, h.setFilter cf hf' (fun _ _ => rfl) draws'⟩
  · rw [if_neg hre]
    exact ⟨w, ptrs, M, rfl, h⟩

theorem step_inv (halloc : Function.Injective P.alloc) (hnull : ∀ i, P.alloc i ≠ 0) (w : World)
    (op : Op) (h : ∃ ptrs M, Inv P w ptrs M) (hok : w.Promised P op ∧ w.Harmless P op) :
    ∃ w', step P w op = some w' ∧ ∃ ptrs M, Inv P w' ptrs M := by
  obtain ⟨ptrs, M, h⟩ := h
  cases op with
  | insert key file ptr =>
    obtain ⟨w', ptrs', M', hstep, h'⟩ := insert_inv halloc hnull h hok.1 hok.2
    exact ⟨w', hstep, ptrs', M', h'⟩
  | update key file ptr =>
    obtain ⟨w', ptrs', M', hstep, h'⟩ := update_inv halloc hnull h hok.1
    exact ⟨w', hstep, ptrs', M', h'⟩
  | rehash cf =>
    obtain ⟨w', ptrs', M', hstep, h'⟩ := rehash_inv h hok.2
    exact ⟨w', hstep, ptrs', M', h'⟩

end Steps

/-- **The index is a map on harmless runs.** For any number of filters, any hash functions
and any draws, a run whose steps keep the promises of the callers and do no harm runs
through, and in the end every key inserted so far reads the file number of its last call.
Every initial segment of the run is such a run. -/
theorem reads_of_harmless (P : Params) (halloc : Function.Injective P.alloc)
    (hnull : ∀ i, P.alloc i ≠ 0) (ops : List Op)
    (hrun : Meets (step P) (fun w op => w.Promised P op ∧ w.Harmless P op) (World.init P) ops) :
    ∃ w, runFrom (step P) (World.init P) ops = some w ∧ w.Reads P := by
  obtain ⟨w, heq, ptrs, M, h⟩ :=
    runFrom_total (step_inv halloc hnull) ⟨_, _, init_inv hnull⟩ hrun
  exact ⟨w, heq, h.reads⟩

/-! ## A run that loses a key -/

/-- One filter, a hash whose upper half is the key, and a `rand()` that always returns `0`. -/
def oneFilter : Params where
  num := 1
  hasher := fun _ key => key * 2 ^ 32
  rand := fun _ => 0
  alloc := oddPages

/-- An even address is free as long as no key is in the tree. -/
theorem World.Fresh.of_empty {w : World} (hw : w.index.tree = Tree.new oddPages) {ptr : Addr}
    (hptr : ptr ≠ 0) (heven : ptr % 2 = 0) : w.Fresh oneFilter ptr := by
  refine ⟨hptr, oddPages_ne_even heven, fun key => ?_⟩
  rw [hw]
  exact (init_inv (P := oneFilter) oddPages_ne_zero).tree.search key ▸ fun h =>
    hptr (Option.some.inj h).symm

/-- Eight keys that fill two buckets, each with one bucket only. -/
def stuckKeys : List Op :=
  [.insert 0x1 10 2, .insert 0x8001 11 4, .insert 0x80000001 12 6, .insert 0x80008001 13 8,
    .insert 0x6994 14 10, .insert 0xe994 15 12, .insert 0x80006994 16 14,
    .insert 0x8000e994 17 16]

/-- The filter after the eight keys. -/
def stuckFilter : Filter where
  maxKeys := Filter.maxNumKeys
  numBuckets := 32768
  table := storeAll (fun _ => 0) [((1, 0), slotOf 0x1 10), ((1, 1), slotOf 0x8001 11),
    ((1, 2), slotOf 0x80000001 12), ((1, 3), slotOf 0x80008001 13), ((0x6994, 0), slotOf 0x6994 14),
    ((0x6994, 1), slotOf 0xe994 15), ((0x6994, 2), slotOf 0x80006994 16),
    ((0x6994, 3), slotOf 0x8000e994 17)]
  numItems := 8
  isRehashing := false

theorem stuckFilter_bounces : Bounces 32768 stuckFilter.table 1 0x6994 (slotOf 0x10001 18) := by
  constructor <;> decide

/-- An `Insert` whose walk fails starts a rehash. -/
theorem step_fails {P : Params} {w : World} {f : Filter} {key file draws : ℕ} {T : Table}
    (hf : w.index.filters (cfNo P key) = f) (hre : f.isRehashing = false)
    (hnone : f.contain (hashHigh P key) = none) (hthread : cfNo P key + 1 < 17)
    (hadd : f.add P.rand w.index.draws (hashHigh P key) file =
      (.ioError "failed to insert!", { f with table := T }, draws)) (ptr : Addr) :
    step P w (.insert key file ptr) = some { w with index := { w.index with
      filters := Function.update w.index.filters (cfNo P key)
        { f with table := T, isRehashing := true }
      draws := draws } } := by
  unfold step Index.insert
  simp [hf, hre, hnone, hadd, hthread, Status.isOk, World.returned]

/-- **A failed `Insert` drops another key.** The ninth key belongs to the two full buckets.
After 500 visits the walk holds the slot of key `1`; the call returns `NotSupported`, a
rehash is started, and key `1` is no longer found. -/
theorem failed_insert_drops_key :
    ∃ w, runFrom (step oneFilter) (World.init oneFilter)
        (stuckKeys ++ [.insert 0x10001 18 18]) = some w ∧
      w.expected 1 = some 10 ∧
      w.index.get oneFilter (Coding.decimalText 1) = some (2 ^ 32 - 1) ∧
      ¬ w.Reads oneFilter := by
  obtain ⟨w, hrun, hf, hdraws, htree, hexpected⟩ :
      ∃ w, runFrom (step oneFilter) (World.init oneFilter) stuckKeys = some w ∧
        w.index.filters 0 = stuckFilter ∧ w.index.draws = 0 ∧ w.index.tree = Tree.new oddPages ∧
        w.expected 1 = some 10 :=
    ⟨_, rfl, rfl, rfl, rfl, rfl⟩
  have hadd : stuckFilter.add (fun _ => 0) 0 0x10001 18 = (.ioError "failed to insert!",
      { stuckFilter with table := Function.update stuckFilter.table (1, 0) (slotOf 0x10001 18) },
      499) :=
    Filter.add_fails (stuckFilter_bounces.addLoop_maxCuckoo 0)
  have hstep : step oneFilter w (.insert 0x10001 18 18) = _ :=
    step_fails hf rfl (by decide) (by decide) (by rw [hdraws]; exact hadd) 18
  rw [runFrom_append, hrun, Option.bind_some, runFrom_cons, hstep]
  refine ⟨_, rfl, hexpected, (and_iff_left_of_imp fun hget hreads => ?_).mpr ?_⟩
  · have hread := (hreads 1 10 hexpected).symm.trans hget
    exact absurd (Option.some.inj hread) (by decide)
  · unfold Index.get
    dsimp only
    rw [Coding.fastAtoi_decimalText (by decide), htree,
      show cfNo oneFilter 1 = cfNo oneFilter 0x10001 from rfl, Function.update_self]
    rfl

/-- One filter with other draws. -/
def otherDraw : Params := { oneFilter with rand := oneDraw }

/-- The filter after an `Update`. -/
def updated : Filter := stuckFilter.update 0x80000001 19

/-- The filter after the ninth key, which is left with its own slot in hand. -/
def leftOut : Filter :=
  { updated with table := exchanged updated.table 0x6994 (slotOf 0x10001 18), isRehashing := true }

theorem updated_add : updated.add oneDraw 0 0x10001 18 = (.ioError "failed to insert!",
    { updated with table := leftOut.table }, 499) :=
  Filter.add_fails (Bounces.addLoop_oneDraw (by constructor <;> decide) (by decide) (by decide)
    (by constructor <;> decide))

theorem leftOut_ne_zero (i j : ℕ) (hj : j < slotPerBucket) :
    leftOut.table (i, j) ≠ 0 ↔ i = 1 ∨ i = 0x6994 := by
  constructor
  · contrapose!
    rintro ⟨h₁, h₂⟩
    change exchanged (Function.update stuckFilter.table (1, 2) _) 0x6994 _ _ = 0
    simp [exchanged, stuckFilter, storeAll, h₁, h₂]
  · rintro (rfl | rfl) <;> revert j <;> decide

theorem leftOut_rehashEnds : leftOut.RehashEnds oneDraw 499 := by
  refine ⟨by decide, by decide, ?_⟩
  rw [← Filter.transfers_filter, show leftOut.numBuckets = 32768 from rfl,
    Filter.filter_positions (show 1 < 0x6994 by decide) (by decide) leftOut_ne_zero]
  iterate 8
    refine ⟨Or.inl ⟨3, by decide, ?_⟩, ?_⟩
    · decide +kernel
  trivial

theorem step_rehash {P : Params} {w w' : World} {cf : ℕ} (h : step P w (.rehash cf) = some w') :
    w'.index.tree = w.index.tree ∧ w'.expected = w.expected := by
  rw [step] at h
  split at h
  · obtain ⟨_, -, rfl⟩ := Option.map_eq_some_iff.mp h
    exact ⟨rfl, rfl⟩
  · obtain rfl := Option.some.inj h
    exact ⟨rfl, rfl⟩

/-- The ninth key fails with its own slot in hand, and the rehash keeps all slots. The last key
is of the class of the first one. -/
theorem reads_of_harmless_rehash :
    ∃ w, runFrom (step otherDraw) (World.init otherDraw)
        (stuckKeys ++ [.update 0x80000001 19 2, .insert 0x10001 18 2, .rehash 0,
          .insert (2 ^ 32 + 1) 20 2]) = some w ∧ w.Reads otherDraw := by
  refine reads_of_harmless otherDraw oddPages_injective oddPages_ne_zero _ ?_
  have hinv : ∃ ptrs M, Inv otherDraw (World.init otherDraw) ptrs M :=
    ⟨_, _, init_inv oddPages_ne_zero⟩
  iterate 8
    refine meets_cons (step_inv oddPages_injective oddPages_ne_zero) hinv
      ⟨⟨by decide, by decide, .of_empty rfl (by decide) rfl⟩, fun _ _ =>
        ⟨by decide, Or.inl ⟨3, by decide, rfl⟩⟩⟩ fun w hw hinv => ?_
    obtain rfl := Option.some.inj hw
  refine meets_cons (step_inv oddPages_injective oddPages_ne_zero) hinv
    ⟨⟨by decide, by decide, .of_empty rfl (by decide) rfl⟩, trivial⟩ fun w hw hinv => ?_
  obtain ⟨hfilter, hdraws, htree, hexpected⟩ : w.index.filters 0 = updated ∧ w.index.draws = 0 ∧
      w.index.tree = Tree.new oddPages ∧ w.expected 1 = some 10 := by
    rw [← Option.some.inj hw]
    exact ⟨rfl, rfl, rfl, rfl⟩
  clear hw
  have hstep : step otherDraw w (.insert 0x10001 18 2) = _ :=
    step_fails hfilter rfl (by decide) (by decide) (by rw [hdraws]; exact updated_add) 2
  refine meets_cons (step_inv oddPages_injective oddPages_ne_zero) hinv
    ⟨⟨by decide, by decide, .of_empty htree (by decide) rfl⟩, fun _ _ => ⟨by decide, ?_⟩⟩
    fun w₁ hw₁ hinv => ?_
  · change (w.index.filters 0).AddEnds oneDraw w.index.draws 0x10001 18
    obtain ⟨ptrs, M, hinv⟩ := hinv
    have hreach := (hinv.filters 0).reachable
    rw [hfilter] at hreach
    rw [hfilter, hdraws]
    refine hreach.addEnds_of_absent oneDraw (by decide) (by decide) (by decide) ?_ ?_
    · rw [updated_add]
      exact Status.noConfusion
    · rw [updated_add]
      decide
  obtain rfl := Option.some.inj (hstep.symm.trans hw₁)
  refine meets_cons (step_inv oddPages_injective oddPages_ne_zero) hinv
    ⟨trivial, fun _ => leftOut_rehashEnds⟩ fun w₂ hw₂ hinv => ?_
  obtain ⟨htree', hexpected'⟩ := step_rehash hw₂
  obtain ⟨ptrs, M, hinv⟩ := hinv
  refine ⟨⟨⟨by decide, by decide, .of_empty (htree'.trans htree) (by decide) rfl⟩,
    fun _ hnone => ?_⟩, fun _ _ => trivial⟩
  refine absurd (((hinv.filters 0).contain _ (by decide)).symm.trans hnone) (hinv.present 1 ?_)
  rw [hexpected', hexpected]
  exact Option.some_ne_none 10

end McfKv.Mci
