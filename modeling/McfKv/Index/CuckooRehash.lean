import Mathlib.Data.List.Sort
import McfKv.Index.CuckooAdd

/-!
# Rehashing a cuckoo filter (`multi-cuckoo-index/cuckoo.cc`)

`Rehash` allocates a larger table and `TransferData` adds the slots of the old one to it, one
by one, until the counter `num_items_` has reached its old value.

The hash of a slot is not stored. `TransferData` takes the fingerprint for it, which is right
except for the hash `0`, whose fingerprint is `1`.
-/

namespace McfKv.Cuckoo

open McfKv.Cuckoo.Filter

/-! ## The counter -/

section Counter

variable (rand : ℕ → ℕ) {e numBuckets : ℕ}

theorem altIndex_two_pow_lt (i fp : ℕ) : altIndex i fp (2 ^ e) < 2 ^ e := by
  unfold altIndex
  rw [indexHash_two_pow]
  exact Nat.mod_lt _ (Nat.two_pow_pos e)

/-- **`AddImpl`** on any table: a kick leaves the number of slots in use as it is, and the walk
succeeds if it uses one more. -/
theorem occupied_addLoop (hsize : 2 ^ e ≤ numBuckets) (visits : ℕ) :
    ∀ kickout T draws i slot, i < 2 ^ e → slot ≠ 0 →
      occupied numBuckets (addLoop rand (2 ^ e) visits kickout T draws i slot).table =
        if (addLoop rand (2 ^ e) visits kickout T draws i slot).status.isOk then
          occupied numBuckets T + 1 else occupied numBuckets T := by
  induction visits with
  | zero => exact fun _ _ _ _ _ _ _ => rfl
  | succ visits ih =>
    intro kickout T draws i slot hi hslot
    unfold addLoop
    rcases scan_cases T i slot with ⟨j, hj, heq, hfree, -⟩ | ⟨heq, -⟩ | ⟨heq, hall⟩
    · rw [heq]
      exact occupied_fill (hi.trans_le hsize) hj hfree hslot
    · rw [heq]
      rfl
    · rw [heq]
      cases kickout with
      | false => exact ih true T draws _ slot (altIndex_two_pow_lt _ _) hslot
      | true =>
        have hj : rand draws % slotPerBucket < slotPerBucket := Nat.mod_lt _ (by decide)
        have hold := (hall _ hj).1
        have hrest := ih true (Function.update T (i, rand draws % slotPerBucket) slot)
          (draws + 1) _ _ (altIndex_two_pow_lt i (T (i, rand draws % slotPerBucket) / 2 ^ 32))
          hold
        rw [occupied_replace hold hslot] at hrest
        exact hrest

end Counter

namespace Filter

section Counted

variable {f : Filter} {E total : ℕ} {T : Table} (rand : ℕ → ℕ)

/-- `num_items_` is the number of slots in use. -/
def Counted (f : Filter) : Prop := f.numItems = occupied f.numBuckets f.table

theorem Counted.addImpl (hf : f.Counted) (hnum : f.numBuckets = 2 ^ E) (draws c : ℕ) {slot : ℕ}
    (hslot : slot ≠ 0) : (f.addImpl rand draws (indexHash c f.numBuckets) slot).2.1.Counted := by
  have hi : indexHash c f.numBuckets < 2 ^ E := by
    rw [hnum, indexHash_two_pow]
    exact Nat.mod_lt _ (Nat.two_pow_pos E)
  have hcount := occupied_addLoop rand hnum.ge maxCuckoo false f.table draws _ slot hi hslot
  unfold Counted Filter.addImpl
  dsimp only
  rw [hnum] at hcount ⊢
  rw [hcount, ← hnum, ← show f.numItems = occupied f.numBuckets f.table from hf]

theorem Counted.transferLoop (ps : List (ℕ × ℕ)) :
    ∀ (f : Filter) draws, f.Counted → f.numBuckets = 2 ^ E →
      (f.transferLoop rand T total ps draws).1.Counted := by
  induction ps with
  | nil => exact fun f draws hf _ => hf
  | cons p ps ih =>
    intro f draws hf hnum
    unfold Filter.transferLoop
    split_ifs with h0
    · exact ih f draws hf hnum
    · have hadd := hf.addImpl rand hnum draws (T p / 2 ^ 32) h0
      dsimp only
      split_ifs
      · exact hadd
      · exact ih _ _ hadd hnum

theorem Counted.update (hf : f.Counted) (hord : f.InOrder E) {h file : ℕ} (hh : h < 2 ^ 32)
    (hfile : file < 2 ^ 32) : (f.update h file).Counted := by
  unfold Filter.update
  cases hp : f.locate h with
  | none => exact hf
  | some p =>
    have hs := (hord.locate_eq_some hh).mp hp
    have hsame : occupied f.numBuckets (Function.update f.table p (slotOf h file)) =
        occupied f.numBuckets f.table :=
      occupied_replace hs.ne_zero (slot_ne_zero (slotOf_div hfile))
    exact hf.trans hsame.symm

theorem Reachable.counted (hf : Reachable f) : f.Counted := by
  induction hf with
  | new maxNumKeys _ => exact (occupied_empty _).symm
  | add rand draws h file _ hfile hf ih =>
    obtain ⟨E, hord⟩ := hf.inOrder
    exact ih.addImpl rand hord.numBuckets draws h (slot_ne_zero (slotOf_div hfile))
  | update h file hh hfile hf ih =>
    obtain ⟨E, hord⟩ := hf.inOrder
    exact ih.update hord hh hfile
  | setRehash flag _ ih => exact ih
  | @rehash f _ rand draws _ hf hre _ =>
    obtain ⟨E, hord⟩ := hf.inOrder
    obtain ⟨E', hgrown, -, hloop⟩ := hord.rehash rand hre
    have hcounted : (f.grown.transferLoop rand f.table f.numItems
        (positions (f.numBuckets % 2 ^ 32)) draws).1.Counted :=
      Counted.transferLoop rand _ f.grown draws (occupied_empty _).symm hgrown.numBuckets
    rwa [hloop] at hcounted

/-! ## The early return of `TransferData` -/

/-- The places that `TransferData` has not visited when it returns. -/
def unvisited (T : Table) (total : ℕ) : List (ℕ × ℕ) → Filter → ℕ → List (ℕ × ℕ)
  | [], _, _ => []
  | p :: ps, f, draws =>
    if T p = 0 then unvisited T total ps f draws
    else
      let added := f.addImpl rand draws (indexHash (T p / 2 ^ 32) f.numBuckets) (T p)
      if added.2.1.numItems = total then ps else unvisited T total ps added.2.1 added.2.2

/-- The counter leaves room for the slots that are still to come. -/
def Fits (f : Filter) (T : Table) (total : ℕ) (ps : List (ℕ × ℕ)) : Prop :=
  f.numItems + ps.countP (fun p => T p ≠ 0) ≤ total

variable {p : ℕ × ℕ} {ps : List (ℕ × ℕ)}

theorem Fits.tail (hf : f.Fits T total (p :: ps)) (h0 : T p = 0) : f.Fits T total ps := by
  unfold Fits at hf
  rwa [List.countP_cons_of_neg (by simpa using h0)] at hf

theorem Fits.addImpl (hf : f.Fits T total (p :: ps)) (h0 : T p ≠ 0) (draws i slot : ℕ) :
    (f.addImpl rand draws i slot).2.1.Fits T total ps := by
  unfold Fits at hf ⊢
  rw [List.countP_cons_of_pos (by simpa using h0)] at hf
  have hstep : (f.addImpl rand draws i slot).2.1.numItems ≤ f.numItems + 1 := by
    unfold Filter.addImpl
    dsimp only
    split_ifs
    · exact le_rfl
    · exact Nat.le_succ _
  omega

/-- When the counter has reached its old value, the rest of the old table is free. -/
theorem Fits.rest_free (hf : f.Fits T total ps) (hdone : f.numItems = total) :
    ∀ p ∈ ps, T p = 0 := by
  have hzero : ps.countP (fun p => T p ≠ 0) = 0 := by
    unfold Fits at hf
    omega
  intro p hp
  simpa using List.countP_eq_zero.mp hzero p hp

theorem Fits.unvisited_free (ps : List (ℕ × ℕ)) : ∀ (f : Filter) draws, f.Fits T total ps →
    ∀ p ∈ f.unvisited rand T total ps draws, T p = 0 := by
  induction ps with
  | nil => exact fun _ _ _ p hp => absurd hp List.not_mem_nil
  | cons q ps ih =>
    intro f draws hf
    unfold unvisited
    split_ifs with h0
    · exact ih f draws (hf.tail h0)
    · have hadd := hf.addImpl rand h0 draws (indexHash (T q / 2 ^ 32) f.numBuckets) (T q)
      dsimp only
      split_ifs with hdone
      · exact hadd.rest_free hdone
      · exact ih _ _ hadd

theorem Counted.fits (hf : f.Counted) :
    f.grown.Fits f.table f.numItems (positions (f.numBuckets % 2 ^ 32)) := by
  have hsub : positions (f.numBuckets % 2 ^ 32) ⊆ positions f.numBuckets := by
    rintro ⟨b, j⟩ hp
    obtain ⟨hb, hj⟩ := mem_positions.mp hp
    exact mem_positions.mpr ⟨hb.trans_le (Nat.mod_le _ _), hj⟩
  unfold Fits
  rw [show f.numItems = occupied f.numBuckets f.table from hf]
  exact (Nat.zero_add _).trans_le ((List.subperm_of_subset (nodup_positions _) hsub).countP_le _)

/-- **`num_items_` counts the slots in use**, buckets are filled from the front, and when
`TransferData` returns early, every place of the old table that it has not visited is free. -/
theorem counts_occupied (hf : Reachable f) :
    f.numItems = occupied f.numBuckets f.table ∧
      (∀ b, ∀ j < slotPerBucket, f.table (b, j) ≠ 0 → ∀ j' ≤ j, f.table (b, j') ≠ 0) ∧
      ∀ draws, ∀ p ∈ f.grown.unvisited rand f.table f.numItems
        (positions (f.numBuckets % 2 ^ 32)) draws, f.table p = 0 := by
  obtain ⟨E, hord⟩ := hf.inOrder
  refine ⟨hf.counted, fun b j _ hne j' hle h0 => ?_, fun draws => ?_⟩
  · exact hne (hord.tidy.packed b j' j hle h0)
  · exact Fits.unvisited_free rand _ f.grown draws hf.counted.fits

/-- A filter with four slots in use. -/
theorem counts_occupied_four :
    ((new 8).addAll [4, 8, 5, 0x10000]).numItems = 4 ∧
      occupied 4 ((new 8).addAll [4, 8, 5, 0x10000]).table = 4 := by
  have hreach : Reachable ((new 8).addAll [4, 8, 5, 0x10000]) :=
    (Reachable.new 8 (by decide)).addAll _ (by decide)
  have hnum : ((new 8).addAll [4, 8, 5, 0x10000]).numItems = 4 := by decide
  exact ⟨hnum, (counts_occupied (fun _ => 0) hreach).1.symm.trans hnum⟩

end Counted

end Filter

/-! ## What the transfer keeps -/

section Moved

variable {e e' : ℕ} {T T' : Table} {p q : ℕ × ℕ} {Q : Set (ℕ × ℕ)}

/-- The bucket that the fingerprint of a slot says in a table with `2 ^ e'` buckets is the
bucket of the same classes. -/
def Placed (e e' : ℕ) (T : Table) : Prop :=
  ∀ c p, T p ≠ 0 → (Seen e T c p ↔ Same e' c (T p / 2 ^ 32))

theorem Placed.eq_of_same (h : Placed e e' T) (hT : Tidy e T) (hp : T p ≠ 0) (hq : T q ≠ 0)
    (hsame : Same e' (T p / 2 ^ 32) (T q / 2 ^ 32)) : p = q :=
  hT.inj _ p q ((h _ p hp).mpr ⟨rfl, rfl⟩) ((h _ q hq).mpr hsame)

theorem seen_zero_iff (he : e ≤ 32) :
    Seen e T 0 p ↔ p.1 = 0 ∧ p.2 < slotPerBucket ∧ T p / 2 ^ 32 = 1 := by
  have hhome : Home e 0 p.1 ↔ p.1 = 0 := by
    unfold Home
    rw [Nat.zero_mod, altIndex_of_small (Nat.two_pow_pos e) he (by decide), or_self]
  unfold Seen
  rw [hhome]
  exact ⟨fun ⟨hj, hb, hfp⟩ => ⟨hb, hj, hfp⟩, fun ⟨hb, hj, hfp⟩ => ⟨hj, hb, hfp⟩⟩

theorem placed_of_forall_ne (hT : Tidy e T) (he : e ≤ 32)
    (hone : ∀ j < slotPerBucket, T (0, j) / 2 ^ 32 ≠ 1) (he' : e' ≠ 0) : Placed e e' T := by
  intro c p hp
  have hzero : ¬ Seen e T 0 p := by
    obtain ⟨b, j⟩ := p
    intro hs
    obtain ⟨rfl, hj, hfp⟩ := (seen_zero_iff he).mp hs
    exact hone j hj hfp
  constructor
  · intro hs
    have hc : c ≠ 0 := fun hc => hzero (hc ▸ hs)
    have hfp : T p / 2 ^ 32 = c := hs.2.2.trans (if_neg hc)
    rw [hfp]
    exact ⟨rfl, rfl⟩
  · intro hsame
    obtain ⟨c', -, hs⟩ := hT.seen p hp
    have hc' : c' ≠ 0 := fun hc => hzero (hc ▸ hs)
    have hfp : T p / 2 ^ 32 = c' := hs.2.2.trans (if_neg hc')
    rwa [(hsame.eq he').trans hfp]

theorem placed_zero (hT : Tidy 0 T) : Placed 0 0 T := by
  intro c p hp
  have hmod : ∀ n, n % 2 ^ 0 = 0 := fun n => Nat.mod_one n
  obtain ⟨c', -, hs⟩ := hT.seen p hp
  have hb : p.1 = 0 := Nat.lt_one_iff.mp (hs.2.1.lt (by decide))
  unfold Same
  rw [hmod, hmod, hT.fingerprint_div hp]
  constructor
  · exact fun h => ⟨rfl, h.2.2.symm⟩
  · exact fun h => ⟨hs.1, Or.inl (hb.trans (hmod c).symm), h.2.symm⟩

/-- A table says what the slots of the old table at some places say. -/
def Tells (e : ℕ) (T' T : Table) (Q : Set (ℕ × ℕ)) : Prop :=
  ∀ c v, Found e T' c v ↔ ∃ p ∈ Q, InHand e (T p / 2 ^ 32) (T p) c v

theorem tells_empty : Tells e (fun _ => 0) T ∅ := by
  intro c v
  constructor
  · rintro ⟨p, hs, -⟩
    exact absurd rfl hs.ne_zero
  · rintro ⟨p, hp, -⟩
    exact absurd hp (Set.notMem_empty p)

theorem Tells.insert (h : Tells e T' T Q) (p : ℕ × ℕ) (c v : ℕ) :
    Found e T' c v ∨ InHand e (T p / 2 ^ 32) (T p) c v ↔
      ∃ q ∈ insert p Q, InHand e (T q / 2 ^ 32) (T q) c v := by
  rw [h c v, Set.exists_mem_insert, or_comm]

theorem Tells.not_seen (h : Tells e' T' T Q) (hplaced : Placed e e' T) (hT : Tidy e T)
    (hQ : ∀ q ∈ Q, T q ≠ 0) (hp : T p ≠ 0) (hnew : p ∉ Q) (q : ℕ × ℕ) :
    ¬ Seen e' T' (T p / 2 ^ 32) q := by
  intro hs
  obtain ⟨r, hr, hsame, -⟩ := (h _ _).mp ⟨q, hs, rfl⟩
  exact hnew (hplaced.eq_of_same hT hp (hQ r hr) hsame ▸ hr)

theorem Tells.drop (hplaced : Placed e e' T) (hT : Tidy e T) (hQ : ∀ q ∈ Q, T q ≠ 0)
    {c' slot' : ℕ} (hgone : ∀ q, ¬ Seen e' T' c' q)
    (hboth : ∀ c v, Found e' T' c v ∨ InHand e' c' slot' c v ↔
      ∃ q ∈ Q, InHand e' (T q / 2 ^ 32) (T q) c v) : ∃ q ∈ Q, Tells e' T' T (Q \ {q}) := by
  obtain ⟨q, hq, hcq, -⟩ := (hboth c' _).mp (Or.inr ⟨⟨rfl, rfl⟩, rfl⟩)
  refine ⟨q, hq, fun c v => ⟨fun hfound => ?_, ?_⟩⟩
  · obtain ⟨r, hr, hhand⟩ := (hboth c v).mp (Or.inl hfound)
    refine ⟨r, ⟨hr, ?_⟩, hhand⟩
    -- the place of the slot in hand is not found any more
    rintro rfl
    obtain ⟨s, hs, -⟩ := hfound
    have hsame : Same e' c' c := hcq.trans hhand.1.symm
    exact hgone s ⟨hs.1, hsame.home_iff.mpr hs.2.1, hs.2.2.trans hsame.2.symm⟩
  · rintro ⟨r, ⟨hr, hne⟩, hhand⟩
    refine ((hboth c v).mpr ⟨r, hr, hhand⟩).resolve_right fun hlost => hne ?_
    exact hplaced.eq_of_same hT (hQ r hr) (hQ q hq) (hhand.1.symm.trans (hlost.1.trans hcq))

/-- The slots of a table at some places. -/
def slotsIn (T : Table) (ps : List (ℕ × ℕ)) : Set (ℕ × ℕ) := {p | p ∈ ps ∧ T p ≠ 0}

variable {ps : List (ℕ × ℕ)}

theorem slotsIn_nil : slotsIn T [] = ∅ := by
  ext q
  simp [slotsIn]

theorem slotsIn_cons_free (hp : T p = 0) : slotsIn T (p :: ps) = slotsIn T ps := by
  ext q
  simp only [slotsIn, Set.mem_ofPred_eq, List.mem_cons]
  constructor
  · rintro ⟨rfl | hq, hne⟩
    · exact absurd hp hne
    · exact ⟨hq, hne⟩
  · exact fun ⟨hq, hne⟩ => ⟨Or.inr hq, hne⟩

theorem slotsIn_cons_slot (hp : T p ≠ 0) : slotsIn T (p :: ps) = insert p (slotsIn T ps) := by
  ext q
  simp only [slotsIn, Set.mem_ofPred_eq, List.mem_cons, Set.mem_insert_iff]
  constructor
  · rintro ⟨rfl | hq, hne⟩
    · exact Or.inl rfl
    · exact Or.inr ⟨hq, hne⟩
  · rintro (rfl | ⟨hq, hne⟩)
    · exact ⟨Or.inl rfl, hp⟩
    · exact ⟨Or.inr hq, hne⟩

end Moved

/-! ## `TransferData` -/

namespace Filter

section Transfer

variable {f : Filter} {E e total : ℕ} {T : Table} {p : ℕ × ℕ} {Q : Set (ℕ × ℕ)} (rand : ℕ → ℕ)

/-- **One slot.** It is added to what the new table says, unless its walk finds no room. -/
theorem InOrder.addImpl_tells (hf : f.InOrder E) (hT : Tidy e T) (hplaced : Placed e (min E 32) T)
    (htells : Tells (min E 32) f.table T Q) (hQ : ∀ q ∈ Q, T q ≠ 0) (hp : T p ≠ 0) (hnew : p ∉ Q)
    (draws : ℕ) : ∃ Q' ⊆ insert p Q, Tells (min E 32)
        (f.addImpl rand draws (indexHash (T p / 2 ^ 32) f.numBuckets) (T p)).2.1.table T Q' ∧
      (WalkEnds rand (fun _ _ => False) f.numBuckets maxCuckoo false f.table draws
        (indexHash (T p / 2 ^ 32) f.numBuckets) (T p) ↔ insert p Q ⊆ Q') := by
  have hlt := hT.div_lt hp
  have hboth := htells.insert (p := p)
  rcases hf.addImpl_ends rand draws hlt (hT.fingerprint_div hp).symm
      (htells.not_seen hplaced hT hQ hp hnew) with
    ⟨T', draws', hres, hfound, hends⟩ | ⟨T', draws', c', i', slot', hres, -, -, -, hgone, hfound,
      hends⟩
  · rw [hf.addImpl_eq rand draws hlt hres, hf.numBuckets, walkEnds_clip, indexHash_clip hlt]
    exact ⟨insert p Q, subset_rfl, fun c v => (hfound c v).trans (hboth c v),
      iff_of_true (hends _) subset_rfl⟩
  · have hQp : ∀ q ∈ insert p Q, T q ≠ 0 := Set.forall_mem_insert.mpr ⟨hp, hQ⟩
    obtain ⟨q, hq, hdrop⟩ :=
      Tells.drop hplaced hT hQp hgone fun c v => (hfound c v).trans (hboth c v)
    rw [hf.addImpl_eq rand draws hlt hres, hf.numBuckets, walkEnds_clip, indexHash_clip hlt, hends]
    exact ⟨insert p Q \ {q}, Set.sdiff_subset, hdrop,
      iff_of_false not_false fun hsub => (hsub hq).2 rfl⟩

/-- The early return changes nothing. -/
theorem transferLoop_cons {ps : List (ℕ × ℕ)} (hf : f.Fits T total (p :: ps)) (hp : T p ≠ 0)
    (draws : ℕ) : f.transferLoop rand T total (p :: ps) draws =
      (f.addImpl rand draws (indexHash (T p / 2 ^ 32) f.numBuckets) (T p)).2.1.transferLoop rand T
        total ps (f.addImpl rand draws (indexHash (T p / 2 ^ 32) f.numBuckets) (T p)).2.2 := by
  have hfree : ∀ (ps : List (ℕ × ℕ)) (f : Filter) draws, (∀ q ∈ ps, T q = 0) →
      f.transferLoop rand T total ps draws = (f, draws) := by
    intro ps
    induction ps with
    | nil => exact fun _ _ _ => rfl
    | cons q ps ih =>
      intro f draws hall
      unfold Filter.transferLoop
      rw [if_pos (hall q List.mem_cons_self)]
      exact ih f draws fun r hr => hall r (List.mem_cons_of_mem q hr)
  have hadd := hf.addImpl rand hp draws (indexHash (T p / 2 ^ 32) f.numBuckets) (T p)
  conv_lhs => unfold Filter.transferLoop
  rw [if_neg hp]
  dsimp only
  split_ifs with hdone
  · exact (hfree ps _ _ (hadd.rest_free hdone)).symm
  · rfl

/-- Only the places with a slot matter to `TransferData`. -/
theorem transfers_filter {ps : List (ℕ × ℕ)} {draws : ℕ} :
    f.Transfers rand T (ps.filter fun p => T p ≠ 0) draws ↔ f.Transfers rand T ps draws := by
  induction ps generalizing f draws with
  | nil => rfl
  | cons p ps ih =>
    by_cases hp : T p = 0
    · rw [List.filter_cons_of_neg (by simpa using hp), ih, Transfers, if_pos hp]
    · rw [List.filter_cons_of_pos (by simpa using hp), Transfers, Transfers,
        if_neg hp, if_neg hp]
      exact and_congr_right fun _ => ih

/-- All the slots are in two buckets. -/
theorem filter_positions {n b b' : ℕ} (hb : b < b') (hb' : b' < n)
    (hT : ∀ i, ∀ j < slotPerBucket, T (i, j) ≠ 0 ↔ i = b ∨ i = b') :
    (positions n).filter (fun p => T p ≠ 0) =
      (List.range slotPerBucket).flatMap fun j => [(b, j), (b', j)] := by
  unfold positions
  rw [List.filter_flatMap]
  refine List.flatMap_congr fun j hj => ?_
  have hplaces : (List.range n).filter (fun i => T (i, j) ≠ 0) = [b, b'] := by
    refine (List.pairwise_lt_range.filter _).eq_of_mem_iff (by simpa using hb) fun i => ?_
    simp only [List.mem_filter, List.mem_range, decide_eq_true_eq, hT i j (List.mem_range.mp hj)]
    grind
  rw [List.filter_map]
  exact congrArg (List.map fun i => (i, j)) hplaces

/-- **`TransferData`** moves some of the slots, and all of them if every walk finds room. -/
theorem transferLoop_tells (hT : Tidy e T) (hplaced : Placed e (min E 32) T) (ps : List (ℕ × ℕ)) :
    ∀ (f : Filter) draws (Q : Set (ℕ × ℕ)), f.InOrder E → f.Fits T total ps → ps.Nodup →
      (∀ q ∈ Q, T q ≠ 0 ∧ q ∉ ps) → Tells (min E 32) f.table T Q → ∃ Q' ⊆ Q ∪ slotsIn T ps,
        Tells (min E 32) (f.transferLoop rand T total ps draws).1.table T Q' ∧
          (f.Transfers rand T ps draws ↔ Q ∪ slotsIn T ps ⊆ Q') := by
  induction ps with
  | nil =>
    intro f draws Q _ _ _ _ htells
    refine ⟨Q, Set.subset_union_left, htells, iff_of_true trivial ?_⟩
    rw [slotsIn_nil, Set.union_empty]
  | cons p ps ih =>
    intro f draws Q hf hfits hnodup hQ htells
    obtain ⟨hpps, hnodup⟩ := List.nodup_cons.mp hnodup
    have htail : ∀ q ∈ Q, q ∉ ps := fun q hq hqps => (hQ q hq).2 (List.mem_cons_of_mem p hqps)
    by_cases hp : T p = 0
    · unfold Filter.transferLoop Transfers
      rw [if_pos hp, if_pos hp, slotsIn_cons_free hp]
      exact ih f draws Q hf (hfits.tail hp) hnodup (fun q hq => ⟨(hQ q hq).1, htail q hq⟩) htells
    · have hnew : p ∉ Q := fun hpQ => (hQ p hpQ).2 List.mem_cons_self
      obtain ⟨Q₁, hQ₁, htells₁, hwalk⟩ := hf.addImpl_tells rand hT hplaced htells
        (fun q hq => (hQ q hq).1) hp hnew draws
      have hapart : ∀ q ∈ insert p Q, T q ≠ 0 ∧ q ∉ ps :=
        Set.forall_mem_insert.mpr ⟨⟨hp, hpps⟩, fun q hq => ⟨(hQ q hq).1, htail q hq⟩⟩
      obtain ⟨Q', hQ', htells', hrest⟩ := ih _
        (f.addImpl rand draws (indexHash (T p / 2 ^ 32) f.numBuckets) (T p)).2.2 Q₁
        (hf.addImpl rand draws (hT.div_lt hp) (hT.fingerprint_div hp).symm)
        (hfits.addImpl rand hp draws _ _) hnodup (fun q hq => hapart q (hQ₁ hq)) htells₁
      have hall : Q ∪ slotsIn T (p :: ps) = insert p Q ∪ slotsIn T ps := by
        rw [slotsIn_cons_slot hp, Set.union_insert, Set.insert_union]
      rw [transferLoop_cons rand hfits hp, hall]
      refine ⟨Q', hQ'.trans (Set.union_subset_union_left _ hQ₁), htells', ?_⟩
      unfold Transfers
      rw [if_neg hp]
      dsimp only
      rw [hwalk, hrest]
      constructor
      · rintro ⟨h₁, h₂⟩
        exact (Set.union_subset_union_left _ h₁).trans h₂
      · intro hsub
        have h₁ : insert p Q ⊆ Q₁ := by
          intro q hq
          rcases hQ' (hsub (Or.inl hq)) with hq₁ | hq₁
          · exact hq₁
          · exact absurd hq₁.1 (hapart q hq).2
        exact ⟨h₁, (Set.union_subset_union_left _ hQ₁).trans hsub⟩

end Transfer

end Filter

/-! ## Class `0` -/

section Plain

variable (rand : ℕ → ℕ) {e : ℕ}

/-- Every slot is in a bucket that its fingerprint says. -/
def Plain (e : ℕ) (T : Table) : Prop := ∀ p, T p ≠ 0 → Home e (T p / 2 ^ 32) p.1

theorem Plain.write {T : Table} (h : Plain e T) {i slot : ℕ} (hi : Home e (slot / 2 ^ 32) i)
    (j : ℕ) : Plain e (Function.update T (i, j) slot) := by
  intro p hp
  rcases eq_or_ne p (i, j) with rfl | hne
  · rwa [Function.update_self]
  · rw [Function.update_of_ne hne] at hp ⊢
    exact h p hp

theorem Home.alt_div {slot i : ℕ} (hslot : slot / 2 ^ 32 ≠ 0) (he : e ≤ 32)
    (hi : Home e (slot / 2 ^ 32) i) :
    Home e (slot / 2 ^ 32) (altIndex i (slot / 2 ^ 32) (2 ^ e)) := by
  have hnext := hi.alt he
  rwa [show fingerprint (slot / 2 ^ 32) = slot / 2 ^ 32 from if_neg hslot] at hnext

theorem addLoop_plain (he : e ≤ 32) (visits : ℕ) :
    ∀ kickout T draws i slot, Plain e T → (∀ p, T p ≠ 0 → T p / 2 ^ 32 ≠ 0) →
      slot / 2 ^ 32 ≠ 0 → Home e (slot / 2 ^ 32) i →
      Plain e (addLoop rand (2 ^ e) visits kickout T draws i slot).table := by
  induction visits with
  | zero => exact fun _ _ _ _ _ h _ _ _ => h
  | succ visits ih =>
    intro kickout T draws i slot h hT hslot hi
    unfold addLoop
    rcases scan_cases T i slot with ⟨j, -, heq, -⟩ | ⟨heq, -⟩ | ⟨heq, hall⟩
    · rw [heq]
      exact h.write hi j
    · rw [heq]
      exact h
    · rw [heq]
      cases kickout with
      | false => exact ih true T draws _ slot h hT hslot (hi.alt_div hslot he)
      | true =>
        have hj : rand draws % slotPerBucket < slotPerBucket := Nat.mod_lt _ (by decide)
        have hold := (hall _ hj).1
        refine ih true _ (draws + 1) _ _ (h.write hi _) (fun p hp => ?_) (hT _ hold)
          ((h _ hold).alt_div (hT _ hold) he)
        rcases eq_or_ne p (i, rand draws % slotPerBucket) with rfl | hne
        · rwa [Function.update_self]
        · rw [Function.update_of_ne hne] at hp ⊢
          exact hT p hp

theorem Plain.not_seen_zero {T : Table} (h : Plain e T) (he : e ≤ 32) (he' : e ≠ 0) (p : ℕ × ℕ) :
    ¬ Seen e T 0 p := by
  intro hs
  obtain ⟨hb, -, hfp⟩ := (seen_zero_iff he).mp hs
  have hone : 1 % 2 ^ e = 1 := Nat.mod_eq_of_lt (Nat.one_lt_two_pow he')
  have hhome := h p hs.ne_zero
  rw [hfp, hb] at hhome
  unfold Home at hhome
  rw [hone, altIndex_of_small (Nat.one_lt_two_pow he') he (by decide), or_self] at hhome
  exact absurd hhome (by decide)

end Plain

/-! ## Rehash -/

namespace Filter

variable {f f' : Filter} {E E' : ℕ} (rand : ℕ → ℕ)

theorem InOrder.div_ne_zero (hf : f.InOrder E) {p : ℕ × ℕ} (hp : f.table p ≠ 0) :
    f.table p / 2 ^ 32 ≠ 0 := by
  obtain ⟨c, -, hs⟩ := hf.tidy.seen p hp
  rw [hs.2.2]
  exact fingerprint_ne_zero c

theorem transferLoop_plain {e total : ℕ} {T : Table} (hT : Tidy e T) (ps : List (ℕ × ℕ)) :
    ∀ (f : Filter) draws, f.InOrder E → Plain (min E 32) f.table →
      Plain (min E 32) (f.transferLoop rand T total ps draws).1.table := by
  induction ps with
  | nil => exact fun _ _ _ h => h
  | cons p ps ih =>
    intro f draws hf h
    unfold Filter.transferLoop
    split_ifs with hp
    · exact ih f draws hf h
    · have hadd := hf.addImpl rand draws (hT.div_lt hp) (hT.fingerprint_div hp).symm
      have hplain : Plain (min E 32)
          (f.addImpl rand draws (indexHash (T p / 2 ^ 32) f.numBuckets) (T p)).2.1.table := by
        unfold Filter.addImpl
        dsimp only
        rw [hf.numBuckets, indexHash_clip (hT.div_lt hp), addLoop_clip]
        refine addLoop_plain rand (Nat.min_le_right E 32) maxCuckoo false f.table draws _ _ h
          (fun q hq => hf.div_ne_zero hq) ?_ (Or.inl rfl)
        rw [← hT.fingerprint_div hp]
        exact fingerprint_ne_zero _
      dsimp only
      split_ifs
      · exact hplain
      · exact ih _ _ hadd hplain

/-- **The property.** `Contain` answers for every class as it did before. -/
def KeepsLookups (f f' : Filter) : Prop := ∀ c < 2 ^ 32, f'.contain c = f.contain c

/-- What a rehash needs to keep all answers: the loop of `TransferData` runs over all buckets,
or there is nothing to transfer; no slot of class `0` moves away from its bucket; and every
walk finds room. -/
def RehashKeeps (f : Filter) (draws : ℕ) : Prop :=
  (f.numBuckets < 2 ^ 32 ∨ f.numItems = 0) ∧
    (f.grown.numBuckets = 1 ∨ ∀ j < slotPerBucket, f.table (0, j) / 2 ^ 32 ≠ 1) ∧
    f.grown.Transfers rand f.table (positions (f.numBuckets % 2 ^ 32)) draws

section

variable (hf : f.InOrder E)

include hf

theorem InOrder.mem_positions {p : ℕ × ℕ} (hp : f.table p ≠ 0) : p ∈ positions f.numBuckets := by
  obtain ⟨c, -, hj, hb, -⟩ := hf.tidy.seen p hp
  refine Filter.mem_positions.mpr ⟨?_, hj⟩
  rw [hf.numBuckets]
  exact (hb.lt (Nat.min_le_right E 32)).trans_le
    (Nat.pow_le_pow_right (by decide) (Nat.min_le_left E 32))

theorem InOrder.numItems_eq_zero_iff (hcount : f.Counted) :
    f.numItems = 0 ↔ ∀ p, f.table p = 0 := by
  rw [show f.numItems = occupied f.numBuckets f.table from hcount, occupied, List.countP_eq_zero]
  constructor
  · intro hfree p
    by_contra hp
    exact hfree p (hf.mem_positions hp) (by simpa using hp)
  · intro hfree p _
    simpa using hfree p

theorem InOrder.table_eq_zero (hnone : ∀ c < 2 ^ 32, f.contain c = none) (p : ℕ × ℕ) :
    f.table p = 0 := by
  by_contra hp
  obtain ⟨c, hc, hs⟩ := hf.tidy.seen p hp
  exact hf.not_seen hc (hnone c hc) p hs

theorem InOrder.contain_of_free (hfree : ∀ p, f.table p = 0) {c : ℕ} (hc : c < 2 ^ 32) :
    f.contain c = none := by
  rw [Option.eq_none_iff_forall_not_mem]
  intro v hv
  obtain ⟨p, hs, -⟩ := (hf.contain_eq_some hc v).mp hv
  exact hs.ne_zero (hfree p)

/-- A table that does not grow beyond one bucket had one bucket. -/
theorem InOrder.eq_zero_of_grown (hE : E < 32) (hone : f.grown.numBuckets = 1) : E = 0 := by
  have hpow : (2 : ℕ) ^ E < 2 ^ 32 := Nat.pow_lt_pow_right (by decide) hE
  obtain ⟨e, he, hkeys⟩ := bucketsFor_spec hf.maxKeys
  rw [← he, ← hf.size, hf.numBuckets] at hkeys
  have hmod : f.maxKeys * 2 % 2 ^ 64 = f.maxKeys * 2 := by
    unfold slotPerBucket at hkeys
    omega
  have hgrown : bucketsFor (f.maxKeys * 2) = 1 := by
    rw [← hmod]
    exact hone
  have hlt : f.maxKeys * 2 < 2 ^ 64 := by
    rw [← hmod]
    exact Nat.mod_lt _ (by decide)
  obtain ⟨e', he', hkeys'⟩ := bucketsFor_spec hlt
  rw [← he', hgrown] at hkeys'
  have hsmall : f.maxKeys < 4 := by
    unfold slotPerBucket at hkeys'
    omega
  have hbuckets : bucketsFor f.maxKeys = 1 := by
    have hcases : ∀ n < 4, bucketsFor n = 1 := by decide
    exact hcases _ hsmall
  rw [← hf.size, hf.numBuckets] at hbuckets
  exact (Nat.pow_eq_one.mp hbuckets).resolve_left (by decide)

theorem InOrder.found_iff_slots {e' : ℕ} (hplaced : Placed (min E 32) e' f.table) (c v : ℕ) :
    Found (min E 32) f.table c v ↔ ∃ p ∈ slotsIn f.table (positions f.numBuckets),
      InHand e' (f.table p / 2 ^ 32) (f.table p) c v := by
  constructor
  · rintro ⟨p, hs, hv⟩
    exact ⟨p, ⟨hf.mem_positions hs.ne_zero, hs.ne_zero⟩, (hplaced c p hs.ne_zero).mp hs, hv⟩
  · rintro ⟨p, hp, hsame, hv⟩
    exact ⟨p, (hplaced c p hp.2).mpr hsame, hv⟩

theorem InOrder.keepsLookups_iff_slots {Q : Set (ℕ × ℕ)} (hf' : f'.InOrder E')
    (hplaced : Placed (min E 32) (min E' 32) f.table)
    (hQ : Q ⊆ slotsIn f.table (positions f.numBuckets))
    (htells : Tells (min E' 32) f'.table f.table Q) :
    f.KeepsLookups f' ↔ slotsIn f.table (positions f.numBuckets) ⊆ Q := by
  constructor
  · intro hkeeps p hp
    have hlt := hf.tidy.div_lt hp.2
    have hold := (hf.found_iff_slots hplaced _ _).mpr ⟨p, hp, ⟨rfl, rfl⟩, rfl⟩
    have hnew := (hf'.contain_eq_some hlt _).mp
      ((hkeeps _ hlt).trans ((hf.contain_eq_some hlt _).mpr hold))
    obtain ⟨q, hq, hsame, -⟩ := (htells _ _).mp hnew
    rwa [hplaced.eq_of_same hf.tidy hp.2 (hQ hq).2 hsame]
  · intro hsub c hc
    obtain rfl := hsub.antisymm hQ
    ext v
    rw [hf'.contain_eq_some hc, htells, ← hf.found_iff_slots hplaced, ← hf.contain_eq_some hc]

theorem InOrder.min_ne_zero (hone : f.numBuckets ≠ 1) : min E 32 ≠ 0 := by
  intro h0
  have hE : E = 0 := by omega
  exact hone (hf.numBuckets.trans (by rw [hE, pow_zero]))

theorem InOrder.placed (hE : E < 32) (hgrown : f.grown.InOrder E')
    (hclass : f.grown.numBuckets = 1 ∨ ∀ j < slotPerBucket, f.table (0, j) / 2 ^ 32 ≠ 1) :
    Placed (min E 32) (min E' 32) f.table := by
  by_cases hone : f.grown.numBuckets = 1
  · obtain rfl := hf.eq_zero_of_grown hE hone
    obtain rfl : E' = 0 :=
      (Nat.pow_eq_one.mp (hgrown.numBuckets.symm.trans hone)).resolve_left (by decide)
    exact placed_zero hf.tidy
  · exact placed_of_forall_ne hf.tidy (Nat.min_le_right E 32) (hclass.resolve_left hone)
      (hgrown.min_ne_zero hone)

theorem InOrder.not_keepsLookups (hgrown : f.grown.InOrder E') (hf' : f'.InOrder E')
    (hplain : Plain (min E' 32) f'.table)
    (hclass : ¬ (f.grown.numBuckets = 1 ∨ ∀ j < slotPerBucket, f.table (0, j) / 2 ^ 32 ≠ 1)) :
    ¬ f.KeepsLookups f' := by
  intro hkeeps
  obtain ⟨hone, j, hj, hfp⟩ : f.grown.numBuckets ≠ 1 ∧
      ∃ j < slotPerBucket, f.table (0, j) / 2 ^ 32 = 1 := by
    push Not at hclass
    exact hclass
  have hold := (hf.contain_eq_some (Nat.two_pow_pos 32) _).mpr
    ⟨(0, j), (seen_zero_iff (Nat.min_le_right E 32)).mpr ⟨rfl, hj, hfp⟩, rfl⟩
  obtain ⟨p, hs, -⟩ := (hf'.contain_eq_some (Nat.two_pow_pos 32) _).mp
    ((hkeeps 0 (Nat.two_pow_pos 32)).trans hold)
  exact hplain.not_seen_zero (Nat.min_le_right E' 32) (hgrown.min_ne_zero hone) p hs

theorem InOrder.keepsLookups_iff_empty (hcount : f.Counted) (hf' : f'.InOrder E')
    (hempty : ∀ p, f'.table p = 0) : f.KeepsLookups f' ↔ f.numItems = 0 := by
  have hnone : ∀ c < 2 ^ 32, f'.contain c = none := fun c hc => hf'.contain_of_free hempty hc
  rw [hf.numItems_eq_zero_iff hcount]
  constructor
  · exact fun hkeeps => hf.table_eq_zero fun c hc => (hkeeps c hc).symm.trans (hnone c hc)
  · intro hfree c hc
    rw [hnone c hc, hf.contain_of_free hfree hc]

theorem InOrder.keepsLookups_iff_transfers (hcount : f.Counted) (hE : E < 32)
    (hgrown : f.grown.InOrder E') (hf' : f'.InOrder E')
    (hclass : f.grown.numBuckets = 1 ∨ ∀ j < slotPerBucket, f.table (0, j) / 2 ^ 32 ≠ 1)
    {draws draws' : ℕ}
    (hloop : f.grown.transferLoop rand f.table f.numItems (positions (f.numBuckets % 2 ^ 32))
      draws = (f', draws')) : f.KeepsLookups f' ↔
      f.grown.Transfers rand f.table (positions (f.numBuckets % 2 ^ 32)) draws := by
  have hlt : f.numBuckets < 2 ^ 32 := hf.numBuckets ▸ Nat.pow_lt_pow_right (by decide) hE
  have hfits := hcount.fits
  rw [Nat.mod_eq_of_lt hlt] at hloop hfits ⊢
  have hplaced := hf.placed hE hgrown hclass
  obtain ⟨Q, hQ, htells, hmoves⟩ := transferLoop_tells rand hf.tidy hplaced
    (positions f.numBuckets) f.grown draws ∅ hgrown hfits (nodup_positions _)
    (fun q hq => absurd hq (Set.notMem_empty q)) tells_empty
  rw [hloop] at htells
  rw [Set.empty_union] at hQ hmoves
  rw [hmoves]
  exact hf.keepsLookups_iff_slots hf' hplaced hQ htells

end

/-- **When a rehash keeps all answers of `Contain`.** -/
theorem keepsLookups_iff (hf : Reachable f) {draws draws' : ℕ}
    (hre : f.rehash rand draws = some (f', draws')) :
    f.KeepsLookups f' ↔ f.RehashKeeps rand draws := by
  have hcount := hf.counted
  obtain ⟨E, hf⟩ := hf.inOrder
  obtain ⟨E', hgrown, hf', hloop⟩ := hf.rehash rand hre
  unfold RehashKeeps
  rcases Nat.lt_or_ge E 32 with hE | hE
  · have hlt : f.numBuckets < 2 ^ 32 := hf.numBuckets ▸ Nat.pow_lt_pow_right (by decide) hE
    rw [and_iff_right (Or.inl hlt)]
    by_cases hclass : f.grown.numBuckets = 1 ∨ ∀ j < slotPerBucket, f.table (0, j) / 2 ^ 32 ≠ 1
    · rw [and_iff_right hclass]
      exact hf.keepsLookups_iff_transfers rand hcount hE hgrown hf' hclass hloop
    · have hplain : Plain (min E' 32) (f.grown.transferLoop rand f.table f.numItems
          (positions (f.numBuckets % 2 ^ 32)) draws).1.table :=
        transferLoop_plain rand hf.tidy _ f.grown draws hgrown fun _ hp => absurd rfl hp
      rw [hloop] at hplain
      exact iff_of_false (hf.not_keepsLookups hgrown hf' hplain hclass) fun h => hclass h.1
  · -- `NumBuckets()` is `0`, and the loop does not run at all
    have hge : ¬ f.numBuckets < 2 ^ 32 := by
      rw [hf.numBuckets]
      exact Nat.not_lt.mpr (Nat.pow_le_pow_right (by decide) hE)
    have hmod : f.numBuckets % 2 ^ 32 = 0 := by
      rw [hf.numBuckets]
      exact Nat.mod_eq_zero_of_dvd (Nat.pow_dvd_pow 2 hE)
    rw [hmod] at hloop ⊢
    have hempty : f.grown = f' := congrArg Prod.fst hloop
    rw [or_iff_right hge, hf.keepsLookups_iff_empty hcount hf' fun p => by rw [← hempty]; rfl]
    refine ⟨fun hzero => ⟨hzero, Or.inr fun j _ => ?_, trivial⟩, fun h => h.1⟩
    rw [(hf.numItems_eq_zero_iff hcount).mp hzero, Nat.zero_div]
    decide

theorem rehash_eq (h : f.numBuckets % 2 ^ 32 < 2 ^ 31) (draws : ℕ) :
    f.rehash rand draws = some (f.grown.transferLoop rand f.table f.numItems
      (positions (f.numBuckets % 2 ^ 32)) draws) := by
  unfold Filter.rehash
  rw [if_neg (Nat.not_le.mpr h)]

/-- A rehash of a filter with two keys. -/
theorem keepsLookups_iff_two : ∃ f' draws',
    ((new 3).addAll [5, 9]).rehash (fun _ => 0) 0 = some (f', draws') ∧
      ((new 3).addAll [5, 9]).KeepsLookups f' := by
  have hreach : Reachable ((new 3).addAll [5, 9]) :=
    (Reachable.new 3 (by decide)).addAll _ (by decide)
  have hre := rehash_eq (f := (new 3).addAll [5, 9]) (fun _ => 0) (by decide) 0
  refine ⟨_, _, hre, (keepsLookups_iff (fun _ => 0) hreach hre).mpr ⟨Or.inl ?_, Or.inr ?_, ?_⟩⟩
  · decide
  · decide
  · exact ⟨Or.inl ⟨0, by decide, rfl⟩, Or.inl ⟨1, by decide, rfl⟩, trivial⟩

/-- **A rehash loses class `0`.** Its fingerprint is `1`, and its slot moves to bucket `1`,
where `Contain` finds class `1` but not class `0`. -/
theorem rehash_loses_class_zero : ∃ f' draws',
    Reachable ((new 8).addAll [0]) ∧
      ((new 8).addAll [0]).rehash (fun _ => 0) 0 = some (f', draws') ∧
      ((new 8).addAll [0]).contain 0 = some 0 ∧ f'.contain 0 = none ∧
      ((new 8).addAll [0]).contain 1 = none ∧ f'.contain 1 = some 0 :=
  ⟨_, _, (Reachable.new 8 (by decide)).addAll _ (by decide), rehash_eq _ (by decide) 0,
    by decide, by decide, by decide, by decide⟩

end Filter

/-! ## Sizes -/

section Sizes

/-- `maximum_frac`, the `double` nearest to `0.96`, in units of `2 ^ -53`. -/
def maximumFrac : ℕ := 8646911284551352

/-- `bucketsFor` with the threshold as it is in the code. The quotients are exact: they are by
powers of two. -/
def bucketsForDouble (maxKeys : ℕ) : ℕ :=
  let numBuckets := upperpower2 (max 1 (maxKeys / slotPerBucket))
  if maximumFrac * (numBuckets * slotPerBucket) < 2 ^ 53 * maxKeys then numBuckets * 2
  else numBuckets

/-- No quotient by a small power of two lies between `0.96` and the `double`, or is `0.96`. -/
theorem maximumFrac_lt_iff {e : ℕ} (he : e ≤ 30) (m : ℕ) :
    maximumFrac * (2 ^ e * slotPerBucket) < 2 ^ 53 * m ↔
      96 * (2 ^ e * slotPerBucket) < 100 * m := by
  have hpow : 2 ^ e ≤ 2 ^ 30 := Nat.pow_le_pow_right (by decide) he
  have hne : 25 * m ≠ 24 * (2 ^ e * 4) := by
    intro heq
    have hcoprime : Nat.Coprime 25 (24 * (2 ^ e * 4)) :=
      .mul_right (by decide) (.mul_right (.pow_right e (by decide)) (by decide))
    exact absurd (hcoprime.eq_one_of_dvd ⟨m, heq.symm⟩) (by decide)
  unfold maximumFrac slotPerBucket
  omega

/-- **The number of buckets** for a number of keys. -/
theorem bucketsFor_load {maxKeys d : ℕ} (hmax : maxKeys ≤ 4 * 2 ^ d) (hd : d ≤ 30) :
    (∃ e ≤ d + 1, bucketsFor maxKeys = 2 ^ e) ∧ bucketsFor maxKeys = bucketsForDouble maxKeys ∧
      100 * maxKeys ≤ 96 * (slotPerBucket * bucketsFor maxKeys) := by
  have hpow : 2 ^ d ≤ 2 ^ 30 := Nat.pow_le_pow_right (by decide) hd
  have hposd := Nat.two_pow_pos d
  obtain ⟨e, heq, hle, hleast⟩ :=
    upperpower2_spec (x := max 1 (maxKeys / slotPerBucket)) (by unfold slotPerBucket; omega)
  have he : e ≤ d := hleast d (by unfold slotPerBucket; omega)
  have hpos := Nat.two_pow_pos e
  unfold bucketsForDouble bucketsFor
  rw [heq]
  dsimp only
  simp only [maximumFrac_lt_iff (he.trans hd), true_and]
  split_ifs with hload
  · refine ⟨⟨e + 1, by omega, (Nat.pow_succ 2 e).symm⟩, ?_⟩
    unfold slotPerBucket at hle ⊢
    omega
  · refine ⟨⟨e, by omega, rfl⟩, ?_⟩
    unfold slotPerBucket at hload ⊢
    omega

namespace Filter

theorem maxKeys_transferLoop (rand : ℕ → ℕ) {T : Table} {total : ℕ} (ps : List (ℕ × ℕ))
    (f : Filter) (draws : ℕ) : (f.transferLoop rand T total ps draws).1.maxKeys = f.maxKeys := by
  induction ps generalizing f draws with
  | nil => rfl
  | cons p ps ih =>
    unfold transferLoop
    split_ifs
    · exact ih f draws
    · dsimp only
      split_ifs
      · rfl
      · exact ih _ _

/-- **Sizes and alternate indices.** `upperpower2` returns the least power of two that is not
below its argument. A filter in any state, after any number of rehashes, with a `max_keys_` of up
to `2 ^ 32` has a power of two of buckets and a load of at most `0.96`, and from either bucket of a
fingerprint `AltIndex` leads to the other. A rehash doubles `max_keys_`, and is possible as long as
the double is within `2 ^ 32`. -/
theorem sizes_altIndex :
    (∀ x, 1 ≤ x → x ≤ 2 ^ 63 → IsLeast {y | x ≤ y ∧ ∃ e, y = 2 ^ e} (upperpower2 x)) ∧
    ∀ f, Reachable f → f.maxKeys ≤ 2 ^ 32 →
      (∃ e ≤ 31, f.numBuckets = 2 ^ e) ∧ f.numBuckets = bucketsForDouble f.maxKeys ∧
      100 * f.maxKeys ≤ 96 * (slotPerBucket * f.numBuckets) ∧
      (∀ i < f.numBuckets, ∀ fp < 2 ^ 32, altIndex i fp f.numBuckets < f.numBuckets ∧
        altIndex (altIndex i fp f.numBuckets) fp f.numBuckets = i) ∧
      (2 * f.maxKeys ≤ 2 ^ 32 → ∀ rand draws, ∃ f' draws',
        f.rehash rand draws = some (f', draws') ∧ f'.maxKeys = 2 * f.maxKeys) := by
  refine ⟨fun x _ hx => ?_, fun f hf hmax => ?_⟩
  · obtain ⟨e, heq, hle, hleast⟩ := upperpower2_spec (hx.trans_lt (by decide))
    rw [heq]
    refine ⟨⟨hle, e, rfl⟩, ?_⟩
    rintro y ⟨hy, d, rfl⟩
    exact Nat.pow_le_pow_right (by decide) (hleast d hy)
  · obtain ⟨E, hord⟩ := hf.inOrder
    obtain ⟨⟨e, he, hpow⟩, hdouble, hload⟩ := bucketsFor_load (d := 30) hmax le_rfl
    rw [← hord.size] at hpow hdouble hload
    refine ⟨⟨e, he, hpow⟩, hdouble, hload, fun i hi fp _ => ?_, fun hgrow rand draws => ?_⟩
    · rw [hpow] at hi ⊢
      exact ⟨altIndex_lt hi (by omega) fp, altIndex_altIndex hi (by omega) fp⟩
    · have hsmall : f.numBuckets < 2 ^ 31 := by
        obtain ⟨⟨e', he', hpow'⟩, -⟩ :=
          bucketsFor_load (d := 29) (show f.maxKeys ≤ 4 * 2 ^ 29 by omega) (by decide)
        rw [hord.size, hpow']
        exact Nat.pow_lt_pow_right (by decide) (by omega)
      refine ⟨_, _, rehash_eq rand (by omega) draws, ?_⟩
      rw [maxKeys_transferLoop]
      change f.maxKeys * 2 % 2 ^ 64 = _
      omega

end Filter

end Sizes

end McfKv.Cuckoo
