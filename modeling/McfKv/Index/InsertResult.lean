import McfKv.Index.FFBtreeInsert

/-!
# The result of `Insert` (`multi-cuckoo-index/ff_btreee.h`, `ff_btreee.cc`)

`Insert` returns what `store` leaves in `*upd_ptr`. On a leaf with room this is the result
of `insert_key`: the pointer that was replaced, or null for a new key. On a full leaf the
same variable takes the results of the insertions that fill the new page, which are all
null, and the result of the insertion of the key itself is ignored.

`insert_returns_replaced_iff` compares the result with what `Search` returned before. They
agree for every key that the leaf does not hold. For a key that it holds they agree exactly
when the leaf has room and `Search` sees the record, or the leaf is full and `Search` does not.
-/

namespace McfKv.Btree

open Fence

theorem split_upd (p : Page) (n : ℕ) (b : Addr) (k : ℕ) (q : Addr) :
    (split p n b k q).upd = (rightHalf p n).old := by
  unfold split
  split_ifs <;> rfl

section Store

variable {alloc : ℕ → Addr} {insertInternal : Tree → ℕ → Addr → ℕ → Option Tree} {t t' : Tree}
  {a k : ℕ} {q upd : Addr} {p : Page} {n : ℕ}

section

variable (hheap : t.heap a = some p) (h : p.Sound n)

include hheap h

theorem storeHere_upd (hstore : storeHere alloc insertInternal t a k q true = some (t', upd)) :
    upd = if n < cardinality - 1 then (p.insertKey k q n).old else 0 := by
  unfold storeHere at hstore
  rw [hheap, Option.bind_some, Page.count_sound h, Option.bind_some] at hstore
  by_cases hn : n < cardinality - 1
  · rw [if_pos hn, if_pos rfl, Option.some.injEq, Prod.mk.injEq] at hstore
    rw [if_pos hn]
    exact hstore.2.symm
  · have hold : (split p n (alloc t.next) k q).upd = 0 := by
      obtain ⟨-, -, -, -, hold, -⟩ := rightHalf_spec h (le_antisymm h.le (not_lt.mp hn))
      rw [split_upd, hold]
    rw [if_neg hn, if_neg (by simp)] at hstore
    rw [if_neg hn]
    dsimp only at hstore
    split_ifs at hstore
    · rw [Option.some.injEq, Prod.mk.injEq] at hstore
      exact hstore.2.symm.trans hold
    · obtain ⟨t₁, -, heq⟩ := Option.map_eq_some_iff.mp hstore
      exact (Prod.mk.inj heq).2.symm.trans hold

theorem storeHere_upd_new (hq : q ≠ 0)
    (hstore : storeHere alloc insertInternal t a k q true = some (t', upd))
    (hnew : ∀ i < n, p.key i ≠ k) : upd = 0 := by
  rw [storeHere_upd hheap h hstore]
  split_ifs with hn
  · obtain ⟨p', heq, -⟩ := Page.insertKey_new h hn hq hnew
    rw [heq]
  · rfl

theorem storeHere_upd_duplicate (hleaf : p.leftmostPtr = 0) (hq : q ≠ 0) {i : ℕ} (hi : i < n)
    (hstore : storeHere alloc insertInternal t a (p.key i) q true = some (t', upd)) :
    upd = if n < cardinality - 1 then p.ptr i else 0 := by
  rw [storeHere_upd hheap h hstore]
  split_ifs with hn
  · obtain ⟨p', heq, -⟩ := Page.insertKey_duplicate h hleaf hq ⟨i, hi, rfl, rfl⟩
    rw [heq]
  · rfl

end

end Store

theorem Page.Finds.eq_ite {p : Page} {n i : ℕ} {R : ℕ → Prop} [DecidablePred R] {r : Addr}
    (hfinds : p.Finds (p.key i) (fun j => j < n ∧ R j) r) (h : p.Sound n) (hi : i < n) :
    r = if p.Valid i ∧ R i then p.ptr i else 0 := by
  rcases hfinds with ⟨j, hj, hvalid, hkey, rfl⟩ | ⟨rfl, hnone⟩
  · obtain rfl := h.key_inj hj.1 hi hkey
    rw [if_pos ⟨hvalid, hj.2⟩]
  · rw [if_neg fun hc => hnone i ⟨hi, hc.2⟩ hc.1 rfl]

/-- **When `Insert` returns what `Search` returned.** On every tree built by insertions of
non-null pointers, for every key and new pointer: always when the leaf for the key does not
hold it; and otherwise when the leaf has room exactly if `Search` sees the record of the key,
which it does unless the pointer repeats the one on its left or is the sibling's address. -/
theorem insert_returns_replaced_iff (alloc : ℕ → Addr) (halloc : Function.Injective alloc)
    (hnull : ∀ i, alloc i ≠ 0) (ops : List (ℕ × Addr)) (hops : ∀ op ∈ ops, op.2 ≠ 0) {t : Tree}
    (ht : (Tree.new alloc).insertAll alloc ops = some t) (k : ℕ) {q : Addr} (hq : q ≠ 0) :
    ∃ a p n, t.descend k (fun p => p.leftmostPtr = 0) t.height t.root = some a ∧
      t.heap a = some p ∧ p.count = some n ∧
      ∃ t' old before, t.insert alloc k q = some (t', old) ∧ t.search k = some before ∧
        (old = before ↔ ∀ i < n, p.key i = k →
          (n < cardinality - 1 ↔ p.Valid i ∧ p.ptr i ≠ p.siblingPtr)) := by
  obtain ⟨t₁, S, heq, h, htop, -⟩ :=
    Rep.insertAll halloc hnull ops _ _ (Rep.new hnull).1 (Rep.new hnull).2 hops
  obtain rfl : t₁ = t := Option.some.inj (heq.symm.trans ht)
  obtain ⟨lo, a, p, n, ha, hk, hheap, hp, hdescend, before, hsearch, hfinds⟩ :=
    h.search_finds (Slack.complete_tight 1) htop k
  obtain ⟨t', old, -, hinsert, -⟩ := h.insert (Slack.complete_tight 0) htop halloc hnull k hq
  refine ⟨a, p, n, hdescend, hheap, Page.count_sound hp.sound, t', old, before, hinsert, hsearch,
    ?_⟩
  have hstore := hinsert
  rw [Tree.insert, hdescend, Option.bind_some, h.store_eq ha hk] at hstore
  by_cases hheld : ∃ i < n, p.key i = k
  · obtain ⟨i, hi, rfl⟩ := hheld
    have hptr := hp.sound.ptr_ne i hi
    rw [storeHere_upd_duplicate hheap hp.sound (hp.leaf rfl) hq hi hstore,
      hfinds.eq_ite hp.sound hi]
    have hforall : (∀ j < n, p.key j = p.key i →
        (n < cardinality - 1 ↔ p.Valid j ∧ p.ptr j ≠ p.siblingPtr)) ↔
          (n < cardinality - 1 ↔ p.Valid i ∧ p.ptr i ≠ p.siblingPtr) :=
      ⟨fun hall => hall i hi rfl, fun hiff j hj hkey => hp.sound.key_inj hj hi hkey ▸ hiff⟩
    rw [hforall]
    by_cases hn : n < cardinality - 1 <;> by_cases hseen : p.Valid i ∧ p.ptr i ≠ p.siblingPtr
    · rw [if_pos hn, if_pos hseen]
      exact iff_of_true rfl (iff_of_true hn hseen)
    · rw [if_pos hn, if_neg hseen]
      exact iff_of_false hptr fun hiff => hseen (hiff.mp hn)
    · rw [if_neg hn, if_pos hseen]
      exact iff_of_false hptr.symm fun hiff => hn (hiff.mpr hseen)
    · rw [if_neg hn, if_neg hseen]
      exact iff_of_true rfl (iff_of_false hn hseen)
  · push Not at hheld
    have hbefore : before = 0 := by
      rcases hfinds with ⟨j, hj, -, hkey, -⟩ | ⟨h0, -⟩
      · exact absurd hkey (hheld j hj.1)
      · exact h0
    rw [storeHere_upd_new hheap hp.sound hq hstore hheld, hbefore]
    exact iff_of_true rfl fun i hi hkey => absurd hkey (hheld i hi)

/-- Three entries, of which the second one gets another pointer: `Insert` returns what `Search`
returned, and so the search sees the record. -/
theorem insert_returns_replaced_iff_threeEntries :
    ∃ t p n, (Tree.new (· + 1)).insertAll (· + 1) [(5, 105), (9, 109), (7, 107)] = some t ∧
      t.search 7 = some 107 ∧ (t.insert (· + 1) 7 300).map Prod.snd = some 107 ∧
      t.heap 1 = some p ∧ p.count = some n ∧
      ∀ i < n, p.key i = 7 → (n < cardinality - 1 ↔ p.Valid i ∧ p.ptr i ≠ p.siblingPtr) := by
  have halloc : Function.Injective (· + 1 : ℕ → Addr) := fun _ _ => Nat.succ.inj
  have hrun : ((Tree.new (· + 1)).insertAll (· + 1) [(5, 105), (9, 109), (7, 107)]).map (fun t =>
      (t.search 7, (t.insert (· + 1) 7 300).map Prod.snd,
        t.descend 7 (fun p => p.leftmostPtr = 0) t.height t.root)) =
      some (some 107, some 107, some 1) := by decide +kernel
  obtain ⟨t, heq, hfacts⟩ := Option.map_eq_some_iff.mp hrun
  simp only [Prod.mk.injEq] at hfacts
  obtain ⟨hsearch, hold, hdescend⟩ := hfacts
  obtain ⟨a, p, n, ha, hp, hn, t', old, before, hinsert, hbefore, hiff⟩ :=
    insert_returns_replaced_iff (· + 1) halloc Nat.succ_ne_zero _ (by decide) heq 7
      (show (300 : Addr) ≠ 0 by decide)
  obtain rfl : 1 = a := Option.some.inj (hdescend.symm.trans ha)
  rw [hinsert, Option.map_some] at hold
  have hsame := hold.trans (hsearch.symm.trans hbefore)
  exact ⟨t, p, n, heq, hsearch, by rw [hinsert]; exact hold, hp, hn,
    hiff.mp (Option.some.inj hsame)⟩

/-- **A key in a full leaf**: `Search` returns its pointer, but `Insert`, which replaces the
pointer, returns null. -/
theorem insert_full_leaf_returns_null :
    ∃ t t',
      (Tree.new (· + 1)).insertAll (· + 1) ((List.range 29).map fun i => (i, i + 100)) = some t ∧
      t.search 5 = some 105 ∧ t.insert (· + 1) 5 300 = some (t', 0) ∧ t'.search 5 = some 300 := by
  have hrun : ((Tree.new (· + 1)).insertAll (· + 1)
      ((List.range 29).map fun i => (i, i + 100))).bind (fun t =>
        (t.insert (· + 1) 5 300).map fun r => (t.search 5, r.2, r.1.search 5)) =
      some (some 105, 0, some 300) := by
    decide +kernel
  obtain ⟨t, ht, hrest⟩ := Option.bind_eq_some_iff.mp hrun
  obtain ⟨⟨t', old⟩, hinsert, hres⟩ := Option.map_eq_some_iff.mp hrest
  obtain ⟨hbefore, hres⟩ := Prod.mk.inj hres
  obtain ⟨hold, hafter⟩ := Prod.mk.inj hres
  obtain rfl : old = 0 := hold
  exact ⟨t, t', ht, hbefore, hinsert, hafter⟩

end McfKv.Btree
