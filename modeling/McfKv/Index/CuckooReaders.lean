import Mathlib.Data.Nat.Bitwise
import McfKv.Index.Cuckoo
import McfKv.Lib.Run

/-!
# Readers of a cuckoo filter (`multi-cuckoo-index/cuckoo.cc`)

`Get` reads a filter without a lock while the thread of the index adds keys to it, and while
a rehash replaces its table. The locks are commented out in the source.

## Kicks

`AddImpl` overwrites the slot that it kicks out and places it in its other bucket later.
`addStores` is the list of the stores that it makes, in order, and a reader may see the table
after any initial segment of them. `found_iff_hasRoom`: every key that was found before is
found between any two stores exactly when `Add` has nothing to kick out.

This is about the tables that a filter can have. `Tidy` says what they look like: a slot is
in a bucket of its class, a class has one slot, buckets are filled from the front, and a
class is outside its first bucket only if that bucket is full.  The last two are why `Add` of
a class that the table already has always notices.

## The swap of the tables

At its end `Rehash` raises `is_deleting_`, deletes the old table, sets `table_` and clears
the flag.  A reader tests the flag once and uses `table_` twice after that.
`safe_iff_beforeDelete`: this goes well exactly when every reader that has computed its
buckets from the old table searches it before it is deleted.
-/

namespace McfKv.Cuckoo

open McfKv.Cuckoo.Filter

/-! ## The stores of `AddImpl` -/

section Stores

variable (rand : ℕ → ℕ)

/-- The calls of `WriteToSlot64` that the loop of `AddImpl` makes, in order: place and word. -/
def addStores (numBuckets : ℕ) : ℕ → Bool → Table → ℕ → ℕ → ℕ → List ((ℕ × ℕ) × ℕ)
  | 0, _, _, _, _, _ => []
  | fuel + 1, kickout, T, draws, i, slot =>
    match scan T i slot (List.range slotPerBucket) with
    | .free j => [((i, j), slot)]
    | .collision => []
    | .full =>
      if kickout then
        let j := rand draws % slotPerBucket
        let old := T (i, j)
        ((i, j), slot) :: addStores numBuckets fuel true (Function.update T (i, j) slot)
          (draws + 1) (altIndex i (old / 2 ^ 32) numBuckets) old
      else addStores numBuckets fuel true T draws (altIndex i (slot / 2 ^ 32) numBuckets) slot

/-- The table after some stores. -/
def storeAll (T : Table) (stores : List ((ℕ × ℕ) × ℕ)) : Table :=
  stores.foldl (fun T store => Function.update T store.1 store.2) T

/-- The stores are all that `AddImpl` does to the table. -/
theorem addLoop_table (numBuckets visits : ℕ) (kickout : Bool) (T : Table) (draws i slot : ℕ) :
    (addLoop rand numBuckets visits kickout T draws i slot).table =
      storeAll T (addStores rand numBuckets visits kickout T draws i slot) := by
  induction visits generalizing kickout T draws i slot with
  | zero => rfl
  | succ visits ih =>
    unfold addLoop addStores
    cases scan T i slot (List.range slotPerBucket) with
    | free j => rfl
    | collision => rfl
    | full =>
      cases kickout with
      | false => exact ih true T draws _ slot
      | true => exact ih true _ (draws + 1) _ _

namespace Filter

/-- The stores of `Add`. -/
def stores (f : Filter) (draws h file : ℕ) : List ((ℕ × ℕ) × ℕ) :=
  addStores rand f.numBuckets maxCuckoo false f.table draws (indexHash h f.numBuckets)
    (slotOf h file)

/-- The filter as a reader may see it: after the first `n` stores of `Add`. -/
def during (f : Filter) (draws h file n : ℕ) : Filter :=
  { f with table := storeAll f.table ((f.stores rand draws h file).take n) }

/-- **The property.** A key enters `Contain` through its class only. Each class that was
found before the `Add` is found, with its file number, between any two stores of it. -/
def StaysFound (f : Filter) (draws h file : ℕ) : Prop :=
  ∀ n, 0 < n → n < (f.stores rand draws h file).length →
    ∀ c < 2 ^ 32, ∀ v, f.contain c = some v → (f.during rand draws h file n).contain c = some v

/-- `Add` kicks out nothing: one of the two buckets has a free place or the fingerprint. -/
def HasRoom (f : Filter) (h : ℕ) : Prop :=
  ∃ b, (b = indexHash h f.numBuckets ∨
      b = altIndex (indexHash h f.numBuckets) (fingerprint h) f.numBuckets) ∧
    ∃ j < slotPerBucket, f.table (b, j) = 0 ∨ f.table (b, j) / 2 ^ 32 = fingerprint h

/-- The states of a `CuckooFilter`: what its public methods lead to. -/
inductive Reachable : Filter → Prop
  | new (maxNumKeys : ℕ) (hmax : maxNumKeys < 2 ^ 64) : Reachable (Filter.new maxNumKeys)
  | add {f : Filter} (rand : ℕ → ℕ) (draws h file : ℕ) (hh : h < 2 ^ 32) (hfile : file < 2 ^ 32)
      (hf : Reachable f) : Reachable (f.add rand draws h file).2.1
  | update {f : Filter} (h file : ℕ) (hh : h < 2 ^ 32) (hfile : file < 2 ^ 32)
      (hf : Reachable f) : Reachable (f.update h file)
  | setRehash {f : Filter} (flag : Bool) (hf : Reachable f) :
      Reachable { f with isRehashing := flag }
  | rehash {f f' : Filter} (rand : ℕ → ℕ) (draws draws' : ℕ) (hf : Reachable f)
      (hre : f.rehash rand draws = some (f', draws')) : Reachable f'

end Filter

end Stores

/-! ## Tables of a filter -/

section Tidy

variable {e c b : ℕ} {T : Table}

/-- A place where `Contain` finds the class. -/
def Seen (e : ℕ) (T : Table) (c : ℕ) (p : ℕ × ℕ) : Prop :=
  p.2 < slotPerBucket ∧ Home e c p.1 ∧ T p / 2 ^ 32 = fingerprint c

/-- **The tables of a filter** with `2 ^ e` buckets. -/
structure Tidy (e : ℕ) (T : Table) : Prop where
  seen : ∀ p, T p ≠ 0 → ∃ c < 2 ^ 32, Seen e T c p
  inj : ∀ c p p', Seen e T c p → Seen e T c p' → p = p'
  packed : ∀ b j j', j ≤ j' → T (b, j) = 0 → T (b, j') = 0
  first : ∀ c p, Seen e T c p → p.1 = c % 2 ^ e ∨ ∀ j < slotPerBucket, T (c % 2 ^ e, j) ≠ 0

theorem slot_ne_zero {slot : ℕ} (hfp : slot / 2 ^ 32 = fingerprint c) : slot ≠ 0 := by
  rintro rfl
  exact fingerprint_ne_zero c (hfp.symm.trans (Nat.zero_div _))

variable {p : ℕ × ℕ} {c' i : ℕ}

theorem Seen.ne_zero (h : Seen e T c p) : T p ≠ 0 := slot_ne_zero h.2.2

theorem Tidy.div_lt (h : Tidy e T) (hp : T p ≠ 0) : T p / 2 ^ 32 < 2 ^ 32 := by
  obtain ⟨c, hc, -, -, hfp⟩ := h.seen p hp
  rw [hfp]
  unfold fingerprint
  split_ifs <;> omega

theorem Tidy.fingerprint_div (h : Tidy e T) (hp : T p ≠ 0) :
    fingerprint (T p / 2 ^ 32) = T p / 2 ^ 32 := by
  obtain ⟨c, -, -, -, hfp⟩ := h.seen p hp
  exact if_neg (hfp ▸ fingerprint_ne_zero c)

theorem update_ne_zero {slot : ℕ} (hslot : slot ≠ 0) (hp : T p ≠ 0) (p' : ℕ × ℕ) :
    Function.update T p' slot p ≠ 0 := by
  rcases eq_or_ne p p' with rfl | hne
  · rwa [Function.update_self]
  · rwa [Function.update_of_ne hne]

theorem seen_update_of_ne {p' : ℕ × ℕ} (hne : p ≠ p') (slot : ℕ) :
    Seen e (Function.update T p' slot) c p ↔ Seen e T c p := by
  unfold Seen
  rw [Function.update_of_ne hne]

/-- The only two classes with one fingerprint are `0` and `1`, and they have one bucket each. -/
theorem eq_or_home_iff (he : e ≤ 32) (hfp : fingerprint c = fingerprint c') :
    c = c' ∨ (∀ b, Home e c b ↔ b = c % 2 ^ e) ∧ ∀ b, Home e c' b ↔ b = c' % 2 ^ e := by
  have hsmall : ∀ a < 2, ∀ b, Home e a b ↔ b = a % 2 ^ e := by
    intro a ha b
    have hfp : fingerprint a < 2 ^ 16 := by
      unfold fingerprint
      split_ifs <;> omega
    unfold Home
    rw [altIndex_of_small (Nat.mod_lt _ (Nat.two_pow_pos e)) he hfp, or_self]
  by_cases hc : c = c'
  · exact Or.inl hc
  · have hlt : c < 2 ∧ c' < 2 := by
      unfold fingerprint at hfp
      split_ifs at hfp <;> omega
    exact Or.inr ⟨hsmall c hlt.1, hsmall c' hlt.2⟩

/-- Classes with one fingerprint that share a bucket are found in the same places. -/
theorem seen_congr (he : e ≤ 32) (hfp : fingerprint c = fingerprint c') (hb : Home e c b)
    (hb' : Home e c' b) (p : ℕ × ℕ) : Seen e T c p ↔ Seen e T c' p := by
  unfold Seen
  rcases eq_or_home_iff he hfp with rfl | ⟨h, h'⟩
  · rfl
  · rw [h, h', hfp, ← (h b).mp hb, ← (h' b).mp hb']

theorem tidy_empty : Tidy e (fun _ => 0) where
  seen _ h := absurd rfl h
  inj _ _ _ h := absurd rfl h.ne_zero
  packed _ _ _ _ _ := rfl
  first _ _ h := absurd rfl h.ne_zero

/-- **The write rule.** A slot may be written to a bucket of its class if the class is in no
other place, everything in front of the place is in use, and the bucket is the first one of
the class or the first one is full. -/
theorem Tidy.write (h : Tidy e T) (he : e ≤ 32) (hc : c < 2 ^ 32) {j slot : ℕ}
    (hj : j < slotPerBucket) (hb : Home e c b) (hfp : slot / 2 ^ 32 = fingerprint c)
    (hother : ∀ p, p ≠ (b, j) → ¬ Seen e T c p) (hplace : ∀ j' < j, T (b, j') ≠ 0)
    (hfirst : b = c % 2 ^ e ∨ ∀ j' < slotPerBucket, T (c % 2 ^ e, j') ≠ 0) :
    Tidy e (Function.update T (b, j) slot) := by
  have hslot : slot ≠ 0 := slot_ne_zero hfp
  have hhere : ∀ c', Seen e (Function.update T (b, j) slot) c' (b, j) →
      Home e c' b ∧ fingerprint c = fingerprint c' := by
    rintro c' ⟨-, hb', hfp'⟩
    rw [Function.update_self, hfp] at hfp'
    exact ⟨hb', hfp'⟩
  -- a class that is found here is found nowhere else
  have halone : ∀ c' p, Seen e (Function.update T (b, j) slot) c' (b, j) →
      Seen e (Function.update T (b, j) slot) c' p → p = (b, j) := by
    intro c' p h₁ h₂
    by_contra hne
    obtain ⟨hb', hfp'⟩ := hhere c' h₁
    exact hother p hne ((seen_congr he hfp' hb hb' p).mpr ((seen_update_of_ne hne slot).mp h₂))
  refine ⟨fun p hp => ?_, fun c' p p' h₁ h₂ => ?_, fun b' j₁ j₂ hle h0 => ?_, fun c' p h₁ => ?_⟩
  · rcases eq_or_ne p (b, j) with rfl | hne
    · exact ⟨c, hc, hj, hb, by rw [Function.update_self, hfp]⟩
    · rw [Function.update_of_ne hne] at hp
      obtain ⟨c', hc', hs⟩ := h.seen p hp
      exact ⟨c', hc', (seen_update_of_ne hne slot).mpr hs⟩
  · by_cases hp : p = (b, j)
    · subst hp
      exact (halone c' p' h₁ h₂).symm
    · by_cases hp' : p' = (b, j)
      · subst hp'
        exact absurd (halone c' p h₂ h₁) hp
      · exact h.inj c' p p' ((seen_update_of_ne hp slot).mp h₁) ((seen_update_of_ne hp' slot).mp h₂)
  · have hne₁ : (b', j₁) ≠ (b, j) := by
      intro heq
      rw [heq, Function.update_self] at h0
      exact hslot h0
    rw [Function.update_of_ne hne₁] at h0
    have hne₂ : (b', j₂) ≠ (b, j) := by
      intro heq
      obtain ⟨rfl, rfl⟩ := Prod.mk.inj heq
      have hlt : j₁ < j₂ := lt_of_le_of_ne hle fun heq => hne₁ (by rw [heq])
      exact hplace j₁ hlt h0
    rw [Function.update_of_ne hne₂]
    exact h.packed b' j₁ j₂ hle h0
  · by_cases hp : p = (b, j)
    · subst hp
      obtain ⟨hb', hfp'⟩ := hhere c' h₁
      rcases eq_or_home_iff he hfp' with rfl | ⟨-, h'⟩
      · exact hfirst.imp_right fun hfull j' hj' => update_ne_zero hslot (hfull j' hj') _
      · exact Or.inl ((h' b).mp hb')
    · exact (h.first c' p ((seen_update_of_ne hp slot).mp h₁)).imp_right
        fun hfull j' hj' => update_ne_zero hslot (hfull j' hj') _

/-- A place that is in use, with another fingerprint. -/
def Other (T : Table) (i slot j : ℕ) : Prop := T (i, j) ≠ 0 ∧ T (i, j) / 2 ^ 32 ≠ slot / 2 ^ 32

theorem scan_range' (T : Table) (i slot n s : ℕ) :
    (∃ j, s ≤ j ∧ j < s + n ∧ scan T i slot (List.range' s n) = .free j ∧ T (i, j) = 0 ∧
        ∀ j', s ≤ j' → j' < j → Other T i slot j') ∨ (scan T i slot (List.range' s n) = .collision ∧
        ∃ j, s ≤ j ∧ j < s + n ∧ T (i, j) / 2 ^ 32 = slot / 2 ^ 32) ∨
      (scan T i slot (List.range' s n) = .full ∧ ∀ j, s ≤ j → j < s + n → Other T i slot j) := by
  induction n generalizing s with
  | zero => exact Or.inr (Or.inr ⟨rfl, fun j h₁ h₂ => by omega⟩)
  | succ n ih =>
    rw [List.range'_succ]
    unfold scan
    split_ifs with h0 hfp
    · exact Or.inl ⟨s, le_rfl, by omega, rfl, h0, fun j' h₁ h₂ => by omega⟩
    · exact Or.inr (Or.inl ⟨rfl, s, le_rfl, by omega, hfp⟩)
    · -- the first place is passed over
      have hcons : ∀ j, s ≤ j → (s + 1 ≤ j → Other T i slot j) → Other T i slot j := by
        intro j hj hrest
        rcases hj.eq_or_lt with rfl | hlt
        · exact ⟨h0, hfp⟩
        · exact hrest hlt
      rcases ih (s + 1) with ⟨j, h₁, h₂, heq, hz, hall⟩ | ⟨heq, j, h₁, h₂, hj⟩ | ⟨heq, hall⟩
      · exact Or.inl ⟨j, by omega, by omega, heq, hz,
          fun j' h₃ h₄ => hcons j' h₃ fun h₅ => hall j' h₅ h₄⟩
      · exact Or.inr (Or.inl ⟨heq, j, by omega, by omega, hj⟩)
      · exact Or.inr (Or.inr ⟨heq, fun j h₃ h₄ => hcons j h₃ fun h₅ => hall j h₅ (by omega)⟩)

/-- **The scan of a bucket** of any table. -/
theorem scan_cases (T : Table) (i slot : ℕ) :
    (∃ j < slotPerBucket, scan T i slot (List.range slotPerBucket) = .free j ∧ T (i, j) = 0 ∧
        ∀ j' < j, Other T i slot j') ∨ (scan T i slot (List.range slotPerBucket) = .collision ∧
        ∃ j < slotPerBucket, T (i, j) / 2 ^ 32 = slot / 2 ^ 32) ∨
      (scan T i slot (List.range slotPerBucket) = .full ∧
        ∀ j < slotPerBucket, Other T i slot j) := by
  rw [List.range_eq_range']
  rcases scan_range' T i slot slotPerBucket 0 with
    ⟨j, -, hj, heq, hz, hall⟩ | ⟨heq, j, -, hj, hfp⟩ | ⟨heq, hall⟩
  · exact Or.inl ⟨j, by omega, heq, hz, fun j' hj' => hall j' (Nat.zero_le _) hj'⟩
  · exact Or.inr (Or.inl ⟨heq, j, by omega, hfp⟩)
  · exact Or.inr (Or.inr ⟨heq, fun j hj => hall j (Nat.zero_le _) (by omega)⟩)

variable {slot j : ℕ}

theorem scan_eq_full (hall : ∀ j < slotPerBucket, Other T i slot j) :
    scan T i slot (List.range slotPerBucket) = .full := by
  rcases scan_cases T i slot with ⟨j, hj, -, h0, -⟩ | ⟨-, j, hj, hfp⟩ | ⟨heq, -⟩
  · exact absurd h0 (hall j hj).1
  · exact absurd hfp (hall j hj).2
  · exact heq

theorem Other.not_seen (h : Other T i slot j) (hfp : slot / 2 ^ 32 = fingerprint c) :
    ¬ Seen e T c (i, j) := fun hs => h.2 (hs.2.2.trans hfp.symm)

theorem Tidy.not_seen_of_free (h : Tidy e T) (hfree : T (i, j) = 0)
    (hall : ∀ j' < j, Other T i slot j') (hfp : slot / 2 ^ 32 = fingerprint c) (p : ℕ × ℕ)
    (hs : Seen e T c p) : p.1 ≠ i := by
  obtain ⟨b, j'⟩ := p
  rintro rfl
  rcases Nat.lt_or_ge j' j with hlt | hge
  · exact (hall j' hlt).not_seen hfp hs
  · exact hs.ne_zero (h.packed b j j' hge hfree)

theorem not_seen_of_full (hall : ∀ j < slotPerBucket, Other T i slot j)
    (hfp : slot / 2 ^ 32 = fingerprint c) (p : ℕ × ℕ) (hs : Seen e T c p) : p.1 ≠ i := by
  obtain ⟨b, j'⟩ := p
  rintro rfl
  exact (hall j' hs.1).not_seen hfp hs

theorem Tidy.not_seen_of_kick (h : Tidy e T) (he : e ≤ 32) (hb : Home e c b)
    (hfp : slot / 2 ^ 32 = fingerprint c) (hnew : ∀ p, ¬ Seen e T c p) (hold : Seen e T c' (b, j))
    (p : ℕ × ℕ) : ¬ Seen e (Function.update T (b, j) slot) c' p := by
  intro hs
  rcases eq_or_ne p (b, j) with rfl | hne
  · have hfp' := hs.2.2
    rw [Function.update_self, hfp] at hfp'
    exact hnew (b, j) ((seen_congr he hfp' hb hold.2.1 (b, j)).mpr hold)
  · exact hne (h.inj c' p (b, j) ((seen_update_of_ne hne slot).mp hs) hold)

/-- The first bucket of a victim is full: it is the bucket of the kick, or the victim was
outside it. -/
theorem Tidy.first_full_of_kick (h : Tidy e T) (hslot : slot ≠ 0)
    (hfull : ∀ j' < slotPerBucket, T (b, j') ≠ 0) (hold : Seen e T c' (b, j)) :
    ∀ j' < slotPerBucket, Function.update T (b, j) slot (c' % 2 ^ e, j') ≠ 0 := by
  intro j' hj'
  refine update_ne_zero hslot ?_ _
  rcases h.first c' _ hold with hp | hfull'
  · exact hp ▸ hfull j' hj'
  · exact hfull' j' hj'

variable (rand : ℕ → ℕ)

/-- **`AddImpl` keeps the table tidy**, whether the class is in the table or not. In the
first round the loop stands in front of the first bucket of the class; later the first bucket
is full, or the loop stands in front of it, and the class is in no other bucket. -/
theorem addLoop_tidy (he : e ≤ 32) (visits : ℕ) :
    ∀ kickout T draws i slot c, Tidy e T → c < 2 ^ 32 → Home e c i →
      slot / 2 ^ 32 = fingerprint c → (kickout = false → i = c % 2 ^ e) →
      (kickout = true → (∀ p, Seen e T c p → p.1 = i) ∧
        (i = c % 2 ^ e ∨ ∀ j < slotPerBucket, T (c % 2 ^ e, j) ≠ 0)) →
      Tidy e (addLoop rand (2 ^ e) visits kickout T draws i slot).table := by
  induction visits with
  | zero => exact fun kickout T draws i slot c h _ _ _ _ _ => h
  | succ visits ih =>
    intro kickout T draws i slot c h hc hi hfp hstart hlater
    unfold addLoop
    rcases scan_cases T i slot with ⟨j, hj, heq, hfree, hall⟩ | ⟨heq, -⟩ | ⟨heq, hall⟩
    · -- a free place: the class is in no other bucket either
      rw [heq]
      have hfirst : i = c % 2 ^ e ∨ ∀ j < slotPerBucket, T (c % 2 ^ e, j) ≠ 0 := by
        cases kickout with
        | false => exact Or.inl (hstart rfl)
        | true => exact (hlater rfl).2
      have hnew : ∀ p, ¬ Seen e T c p := by
        intro p hs
        refine h.not_seen_of_free hfree hall hfp p hs ?_
        cases kickout with
        | false =>
          rcases h.first c p hs with hp | hfull
          · rw [hp, hstart rfl]
          · exact absurd hfree (hstart rfl ▸ hfull j hj)
        | true => exact (hlater rfl).1 p hs
      exact h.write he hc hj hi hfp (fun p _ => hnew p) (fun j' hj' => (hall j' hj').1) hfirst
    · rw [heq]
      exact h
    · rw [heq]
      have hnot := not_seen_of_full (e := e) hall hfp
      cases kickout with
      | false =>
        -- on to the second bucket
        obtain rfl := hstart rfl
        rw [if_neg Bool.false_ne_true, hfp]
        refine ih true T draws _ slot c h hc (hi.alt he) hfp (by simp) fun _ => ⟨?_, ?_⟩
        · intro p hs
          exact hs.2.1.resolve_left (hnot p hs)
        · exact Or.inr fun j hj => (hall j hj).1
      | true =>
        have hj : rand draws % slotPerBucket < slotPerBucket := Nat.mod_lt _ (by decide)
        obtain ⟨honly, hfirst⟩ := hlater rfl
        have hnew : ∀ p, ¬ Seen e T c p := fun p hs => hnot p hs (honly p hs)
        obtain ⟨c', hc', hold⟩ := h.seen _ (hall _ hj).1
        have hgone := h.not_seen_of_kick he hi hfp hnew hold
        have hkick := h.write he hc hj hi hfp (fun p _ => hnew p)
          (fun j' hj' => (hall j' (hj'.trans hj)).1) hfirst
        rw [if_pos rfl]
        refine ih true _ (draws + 1) _ _ c' hkick hc' ?_ hold.2.2 (by simp) fun _ => ⟨?_, ?_⟩
        · rw [hold.2.2]
          exact hold.2.1.alt he
        · exact fun p hs => absurd hs (hgone p)
        · exact Or.inr (h.first_full_of_kick (slot_ne_zero hfp) (fun j' hj' => (hall j' hj').1) hold)

end Tidy

/-! ## Sizes

The number of buckets is a power of two. Above `2 ^ 32` buckets the indices, which are
computed from 32 bits, are those of a table with `2 ^ 32` buckets. -/

section Sizes

theorem smear {y z d : ℕ} (h : ∀ i, z.testBit i = true ↔ ∃ k < d, y.testBit (i + k) = true)
    (i : ℕ) : (z ||| z >>> d).testBit i = true ↔ ∃ k < d + d, y.testBit (i + k) = true := by
  rw [Nat.testBit_or, Bool.or_eq_true, Nat.testBit_shiftRight, h, h]
  constructor
  · rintro (⟨k, hk, hbit⟩ | ⟨k, hk, hbit⟩)
    · exact ⟨k, by omega, hbit⟩
    · exact ⟨d + k, by omega, by rwa [← Nat.add_assoc, Nat.add_comm i d]⟩
  · rintro ⟨k, hk, hbit⟩
    rcases Nat.lt_or_ge k d with hlt | hge
    · exact Or.inl ⟨k, hlt, hbit⟩
    · refine Or.inr ⟨k - d, by omega, ?_⟩
      rwa [show d + i + (k - d) = i + k by omega]

/-- **`upperpower2`** returns the least power of two that is not below its argument. -/
theorem upperpower2_spec {x : ℕ} (hx : x < 2 ^ 64) :
    ∃ e, upperpower2 x = 2 ^ e ∧ x ≤ 2 ^ e ∧ ∀ d, x ≤ 2 ^ d → e ≤ d := by
  -- a bit of the smeared number is set if a bit of `x - 1` at or above it is
  obtain ⟨z, hz, hbit⟩ : ∃ z, upperpower2 x = z + 1 ∧
      ∀ i, z.testBit i = true ↔ ∃ k < 64, (x - 1).testBit (i + k) = true := by
    have h₀ : ∀ i, (x - 1).testBit i = true ↔ ∃ k < 1, (x - 1).testBit (i + k) = true := by simp
    exact ⟨_, rfl, smear (smear (smear (smear (smear (smear h₀)))))⟩
  by_cases h0 : x - 1 = 0
  · have hz0 : z = 0 := by
      refine Nat.eq_of_testBit_eq fun i => Bool.eq_iff_iff.mpr ?_
      rw [hbit, h0]
      simp
    exact ⟨0, hz.trans (congrArg (· + 1) hz0), by rw [pow_zero]; omega, fun d _ => Nat.zero_le d⟩
  · refine ⟨(x - 1).log2 + 1, ?_, ?_, fun d hd => (Nat.log2_lt h0).mpr (by omega)⟩
    · have hlog : (x - 1).log2 < 64 := (Nat.log2_lt h0).mpr (by omega)
      have hones : z = 2 ^ ((x - 1).log2 + 1) - 1 := by
        refine Nat.eq_of_testBit_eq fun i => Bool.eq_iff_iff.mpr ?_
        rw [hbit, Nat.testBit_two_pow_sub_one, decide_eq_true_eq]
        constructor
        · rintro ⟨k, -, hk⟩
          by_contra hlt
          have hbig : x - 1 < 2 ^ (i + k) :=
            Nat.lt_log2_self.trans_le (Nat.pow_le_pow_right (by omega) (by omega))
          rw [Nat.testBit_lt_two_pow hbig] at hk
          exact Bool.false_ne_true hk
        · intro hle
          refine ⟨(x - 1).log2 - i, by omega, ?_⟩
          rw [show i + ((x - 1).log2 - i) = (x - 1).log2 by omega]
          exact Nat.testBit_log2 h0
      have hpos := Nat.two_pow_pos ((x - 1).log2 + 1)
      omega
    · have := @Nat.lt_log2_self (x - 1)
      omega

theorem bucketsFor_spec {maxKeys : ℕ} (hmax : maxKeys < 2 ^ 64) :
    ∃ e, bucketsFor maxKeys = 2 ^ e ∧ maxKeys / slotPerBucket ≤ 2 ^ e := by
  have hle : maxKeys / slotPerBucket ≤ maxKeys := Nat.div_le_self _ _
  obtain ⟨e, he, hx, -⟩ := upperpower2_spec (x := max 1 (maxKeys / slotPerBucket)) (by omega)
  unfold bucketsFor
  rw [he]
  dsimp only
  split_ifs
  · exact ⟨e + 1, (Nat.pow_succ 2 e).symm, by rw [Nat.pow_succ]; omega⟩
  · exact ⟨e, rfl, by omega⟩

variable {E : ℕ}

theorem indexHash_clip {h : ℕ} (hh : h < 2 ^ 32) : indexHash h (2 ^ E) = h % 2 ^ min E 32 := by
  rw [indexHash_two_pow]
  rcases Nat.le_total E 32 with hle | hge
  · rw [Nat.min_eq_left hle]
  · rw [Nat.min_eq_right hge, Nat.mod_eq_of_lt hh,
      Nat.mod_eq_of_lt (hh.trans_le (Nat.pow_le_pow_right (by omega) hge))]

theorem altIndex_clip (i fp : ℕ) : altIndex i fp (2 ^ E) = altIndex i fp (2 ^ min E 32) := by
  unfold altIndex
  rw [indexHash_clip (Nat.mod_lt _ (by omega)), indexHash_clip (Nat.mod_lt _ (by omega)),
    Nat.min_assoc, Nat.min_self]

theorem addLoop_clip (rand : ℕ → ℕ) (visits : ℕ) (kickout : Bool) (T : Table) (draws i slot : ℕ) :
    addLoop rand (2 ^ E) visits kickout T draws i slot =
      addLoop rand (2 ^ min E 32) visits kickout T draws i slot := by
  induction visits generalizing kickout T draws i slot with
  | zero => rfl
  | succ visits ih =>
    unfold addLoop
    simp only [← altIndex_clip (E := E), ih]

end Sizes

/-! ## The states of a filter -/

namespace Filter

/-- What the states of a filter with `2 ^ E` buckets have in common. -/
structure InOrder (f : Filter) (E : ℕ) : Prop where
  maxKeys : f.maxKeys < 2 ^ 64
  size : f.numBuckets = bucketsFor f.maxKeys
  numBuckets : f.numBuckets = 2 ^ E
  tidy : Tidy (min E 32) f.table

variable {f : Filter} {E : ℕ}

theorem inOrder_empty (hmax : f.maxKeys < 2 ^ 64) (hsize : f.numBuckets = bucketsFor f.maxKeys)
    (hempty : f.table = fun _ => 0) : ∃ E, f.InOrder E := by
  obtain ⟨E, hE, -⟩ := bucketsFor_spec hmax
  exact ⟨E, hmax, hsize, hsize.trans hE, hempty ▸ tidy_empty⟩

variable (rand : ℕ → ℕ)

variable {c slot h file e : ℕ} {T : Table}

section

variable (hf : f.InOrder E)

include hf

theorem InOrder.addImpl (draws : ℕ) (hc : c < 2 ^ 32) (hfp : slot / 2 ^ 32 = fingerprint c) :
    (f.addImpl rand draws (indexHash c f.numBuckets) slot).2.1.InOrder E := by
  refine ⟨hf.maxKeys, hf.size, hf.numBuckets, ?_⟩
  unfold Filter.addImpl
  dsimp only
  rw [hf.numBuckets, indexHash_clip hc, addLoop_clip]
  exact addLoop_tidy rand (Nat.min_le_right E 32) maxCuckoo false f.table draws _ slot c hf.tidy hc
    (Or.inl rfl) hfp (fun _ => rfl) nofun

theorem InOrder.add (draws : ℕ) (hh : h < 2 ^ 32) (hfile : file < 2 ^ 32) :
    (f.add rand draws h file).2.1.InOrder E :=
  hf.addImpl rand draws hh (slotOf_div hfile)

theorem InOrder.home_iff (hc : c < 2 ^ 32) (b : ℕ) :
    Home (min E 32) c b ↔ b = indexHash c f.numBuckets ∨
      b = altIndex (indexHash c f.numBuckets) (fingerprint c) f.numBuckets := by
  rw [hf.numBuckets, indexHash_clip hc, altIndex_clip]
  rfl

/-- **`locate`** finds a class where it is. -/
theorem InOrder.locate_eq_some (hc : c < 2 ^ 32) {p : ℕ × ℕ} :
    f.locate c = some p ↔ Seen (min E 32) f.table c p := by
  have hsound : ∀ p, f.locate c = some p → Seen (min E 32) f.table c p := by
    intro p hp
    rcases Option.or_eq_some_iff.mp hp with hp | ⟨-, hp⟩
    · obtain ⟨hi, hj, hfp⟩ := findInBucket_eq_some hp
      exact ⟨hj, (hf.home_iff hc _).mpr (Or.inl hi), hfp⟩
    · obtain ⟨hi, hj, hfp⟩ := findInBucket_eq_some hp
      exact ⟨hj, (hf.home_iff hc _).mpr (Or.inr hi), hfp⟩
  refine ⟨hsound p, fun hs => ?_⟩
  cases hp : f.locate c with
  | some q => rw [hf.tidy.inj c q p (hsound q hp) hs]
  | none =>
    obtain ⟨h₁, h₂⟩ := Option.or_eq_none_iff.mp hp
    rw [findInBucket_eq_none] at h₁ h₂
    obtain ⟨b, j⟩ := p
    rcases (hf.home_iff hc b).mp hs.2.1 with rfl | rfl
    · exact absurd hs.2.2 (h₁ j hs.1)
    · exact absurd hs.2.2 (h₂ j hs.1)

theorem InOrder.update (hh : h < 2 ^ 32) (hfile : file < 2 ^ 32) : (f.update h file).InOrder E := by
  unfold Filter.update
  cases hp : f.locate h with
  | none => exact hf
  | some p =>
    have hs := (hf.locate_eq_some hh).mp hp
    refine ⟨hf.maxKeys, hf.size, hf.numBuckets, ?_⟩
    refine hf.tidy.write (Nat.min_le_right E 32) hh hs.1 hs.2.1 (slotOf_div hfile) ?_ ?_ ?_
    · exact fun q hne hq => hne (hf.tidy.inj h q p hq hs)
    · exact fun j' hj' h0 => hs.ne_zero (hf.tidy.packed p.1 j' p.2 hj'.le h0)
    · exact hf.tidy.first h p hs

end

/-- **`TransferData`** fills a table as `Add` does, from any tidy table. -/
theorem InOrder.transferLoop {total : ℕ} (hT : Tidy e T) (ps : List (ℕ × ℕ)) :
    ∀ (f : Filter) draws, f.InOrder E → (f.transferLoop rand T total ps draws).1.InOrder E := by
  induction ps with
  | nil => exact fun f draws hf => hf
  | cons p ps ih =>
    intro f draws hf
    unfold Filter.transferLoop
    split_ifs with h0
    · exact ih f draws hf
    · -- the new bucket is computed from the fingerprint
      have hadd := hf.addImpl rand draws (hT.div_lt h0) (hT.fingerprint_div h0).symm
      dsimp only
      split_ifs
      · exact hadd
      · exact ih _ _ hadd

theorem InOrder.rehash {f' : Filter} {draws draws' : ℕ} (hf : f.InOrder E)
    (hre : f.rehash rand draws = some (f', draws')) : ∃ E', f.grown.InOrder E' ∧ f'.InOrder E' ∧
      f.grown.transferLoop rand f.table f.numItems (positions (f.numBuckets % 2 ^ 32)) draws =
        (f', draws') := by
  unfold Filter.rehash at hre
  split_ifs at hre
  obtain ⟨E', hgrown⟩ := inOrder_empty (f := f.grown) (Nat.mod_lt _ (by decide)) rfl rfl
  have hloop := Option.some.inj hre
  have htransfer : (f.grown.transferLoop rand f.table f.numItems
      (positions (f.numBuckets % 2 ^ 32)) draws).1.InOrder E' :=
    InOrder.transferLoop rand hf.tidy _ f.grown draws hgrown
  rw [hloop] at htransfer
  exact ⟨E', hgrown, htransfer, hloop⟩

/-- **Every state of a filter is in order.** -/
theorem Reachable.inOrder {f : Filter} (hf : Reachable f) : ∃ E, f.InOrder E := by
  induction hf with
  | new maxNumKeys hmax => exact inOrder_empty hmax rfl rfl
  | add rand draws h file hh hfile _ ih =>
    obtain ⟨E, hf⟩ := ih
    exact ⟨E, hf.add rand draws hh hfile⟩
  | update h file hh hfile _ ih =>
    obtain ⟨E, hf⟩ := ih
    exact ⟨E, hf.update hh hfile⟩
  | setRehash flag _ ih =>
    obtain ⟨E, hf⟩ := ih
    exact ⟨E, hf.maxKeys, hf.size, hf.numBuckets, hf.tidy⟩
  | rehash rand _ _ _ hre ih =>
    obtain ⟨E, hf⟩ := ih
    obtain ⟨E', -, hf', -⟩ := hf.rehash rand hre
    exact ⟨E', hf'⟩

/-! ## Kicks and readers -/

theorem InOrder.contain_eq_none (hf : f.InOrder E) (hc : c < 2 ^ 32) (T : Table)
    (hgone : ∀ p, ¬ Seen (min E 32) T c p) : ({ f with table := T } : Filter).contain c = none := by
  refine Option.map_eq_none_iff.mpr (Option.or_eq_none_iff.mpr ⟨?_, ?_⟩)
  · refine findInBucket_eq_none.mpr fun j hj hfp => ?_
    exact hgone (_, j) ⟨hj, (hf.home_iff hc _).mpr (Or.inl rfl), hfp⟩
  · refine findInBucket_eq_none.mpr fun j hj hfp => ?_
    exact hgone (_, j) ⟨hj, (hf.home_iff hc _).mpr (Or.inr rfl), hfp⟩

theorem hasRoom_or_other (f : Filter) (h : ℕ) (hfile : file < 2 ^ 32) :
    f.HasRoom h ∨ ∀ b, (b = indexHash h f.numBuckets ∨
      b = altIndex (indexHash h f.numBuckets) (fingerprint h) f.numBuckets) →
        ∀ j < slotPerBucket, Other f.table b (slotOf h file) j := by
  by_cases hroom : f.HasRoom h
  · exact Or.inl hroom
  · refine Or.inr fun b hb j hj => ⟨fun h0 => hroom ⟨b, hb, j, hj, Or.inl h0⟩, fun hfp => ?_⟩
    exact hroom ⟨b, hb, j, hj, Or.inr (hfp.trans (slotOf_div hfile))⟩

theorem HasRoom.length_stores (hroom : f.HasRoom h) (hfile : file < 2 ^ 32) (draws : ℕ) :
    (f.stores rand draws h file).length ≤ 1 := by
  have hfull : ∀ b, (∀ j < slotPerBucket, Other f.table b (slotOf h file) j) →
      ¬ ∃ j < slotPerBucket, f.table (b, j) = 0 ∨ f.table (b, j) / 2 ^ 32 = fingerprint h := by
    rintro b hall ⟨j, hj, h0 | hfp⟩
    · exact (hall j hj).1 h0
    · exact (hall j hj).2 (hfp.trans (slotOf_div hfile).symm)
  obtain ⟨b, hb, hplace⟩ := hroom
  unfold stores
  rw [show maxCuckoo = 498 + 1 + 1 from rfl, addStores]
  rcases scan_cases f.table (indexHash h f.numBuckets) (slotOf h file) with
    ⟨j, -, heq, -⟩ | ⟨heq, -⟩ | ⟨heq, hall₁⟩
  · rw [heq]
    rfl
  · rw [heq]
    exact Nat.zero_le _
  · rw [heq]
    dsimp only
    rw [if_neg Bool.false_ne_true, slotOf_div hfile, addStores]
    rcases scan_cases f.table (altIndex (indexHash h f.numBuckets) (fingerprint h) f.numBuckets)
      (slotOf h file) with ⟨j, -, heq, -⟩ | ⟨heq, -⟩ | ⟨heq, hall₂⟩
    · rw [heq]
      rfl
    · rw [heq]
      exact Nat.zero_le _
    · rcases hb with rfl | rfl
      · exact absurd hplace (hfull _ hall₁)
      · exact absurd hplace (hfull _ hall₂)

theorem addStores_ne_nil {i visits : ℕ} (hi : Home e c i) (hfp : slot / 2 ^ 32 = fingerprint c)
    (hnew : ∀ p, ¬ Seen e T c p) (numBuckets draws : ℕ) :
    addStores rand numBuckets (visits + 1) true T draws i slot ≠ [] := by
  unfold addStores
  rcases scan_cases T i slot with ⟨j, -, heq, -⟩ | ⟨-, j, hj, hsame⟩ | ⟨heq, -⟩
  · rw [heq]
    exact List.cons_ne_nil _ _
  · exact absurd ⟨hj, hi, hsame.trans hfp⟩ (hnew (i, j))
  · rw [heq]
    exact List.cons_ne_nil _ _

theorem InOrder.hidden (hf : f.InOrder E) (hh : h < 2 ^ 32) (hfile : file < 2 ^ 32) (draws : ℕ)
    (hroom : ¬ f.HasRoom h) : 1 < (f.stores rand draws h file).length ∧
      ∃ c < 2 ^ 32, ∃ v, f.contain c = some v ∧
        (f.during rand draws h file 1).contain c = none := by
  have hother := (hasRoom_or_other f h hfile).resolve_left hroom
  set i := altIndex (indexHash h f.numBuckets) (fingerprint h) f.numBuckets with hi
  set j := rand draws % slotPerBucket
  have hj : j < slotPerBucket := Nat.mod_lt _ (by decide)
  have hhome : Home (min E 32) h i := (hf.home_iff hh i).mpr (Or.inr rfl)
  have hnew : ∀ p, ¬ Seen (min E 32) f.table h p := fun p hs =>
    not_seen_of_full (hother p.1 ((hf.home_iff hh p.1).mp hs.2.1)) (slotOf_div hfile) p hs rfl
  obtain ⟨c, hc, hold⟩ := hf.tidy.seen (i, j) (hother i (Or.inr rfl) j hj).1
  have hgone := hf.tidy.not_seen_of_kick (Nat.min_le_right E 32) hhome (slotOf_div hfile) hnew hold
  -- the first visit goes on to the second bucket, and the second visit kicks
  have hstores : f.stores rand draws h file = ((i, j), slotOf h file) ::
      addStores rand f.numBuckets 498 true (Function.update f.table (i, j) (slotOf h file))
        (draws + 1) (altIndex i (f.table (i, j) / 2 ^ 32) f.numBuckets) (f.table (i, j)) := by
    unfold stores
    rw [show maxCuckoo = 498 + 1 + 1 from rfl, addStores, scan_eq_full (hother _ (Or.inl rfl))]
    dsimp only
    rw [if_neg Bool.false_ne_true, slotOf_div hfile, ← hi, addStores,
      scan_eq_full (hother _ (Or.inr rfl))]
    rfl
  have hnext : Home (min E 32) c (altIndex i (f.table (i, j) / 2 ^ 32) f.numBuckets) := by
    rw [hold.2.2, hf.numBuckets, altIndex_clip]
    exact hold.2.1.alt (Nat.min_le_right E 32)
  refine ⟨?_, c, hc, f.table (i, j) % 2 ^ 32, ?_, ?_⟩
  · rw [hstores, List.length_cons]
    exact Nat.succ_lt_succ (List.length_pos_iff.mpr (addStores_ne_nil rand hnext hold.2.2 hgone _ _))
  · unfold Filter.contain
    rw [(hf.locate_eq_some hc).mpr hold]
    rfl
  · unfold during
    rw [hstores]
    exact hf.contain_eq_none hc _ hgone

/-- **When kicks hide nothing.** Every key that was found before an `Add` is found, with its
file number, between any two stores of it, if and only if one of the two buckets of the new
key has a free place or already has its fingerprint. -/
theorem found_iff_hasRoom (hf : Reachable f) (draws : ℕ) {h file : ℕ} (hh : h < 2 ^ 32)
    (hfile : file < 2 ^ 32) : f.StaysFound rand draws h file ↔ f.HasRoom h := by
  obtain ⟨E, hf⟩ := hf.inOrder
  constructor
  · intro hfound
    by_contra hroom
    obtain ⟨hlen, c, hc, v, hv, hnone⟩ := hf.hidden rand hh hfile draws hroom
    have hstill := hfound 1 Nat.one_pos hlen c hc v hv
    rw [hnone] at hstill
    exact absurd hstill (by simp)
  · intro hroom n hn hlen
    have hone := hroom.length_stores rand hfile draws
    omega

/-- A filter after an `Add` for each of the classes, with the class as file number. -/
def addAll (f : Filter) : List ℕ → Filter
  | [] => f
  | h :: hs => addAll (f.add (fun _ => 0) 0 h h).2.1 hs

theorem Reachable.addAll {f : Filter} (hf : Reachable f) (hs : List ℕ) (hlt : ∀ h ∈ hs, h < 2 ^ 32) :
    Reachable (f.addAll hs) := by
  induction hs generalizing f with
  | nil => exact hf
  | cons h hs ih =>
    have hh := hlt h List.mem_cons_self
    exact ih (hf.add _ 0 h h hh hh) fun h' hh' => hlt h' (List.mem_cons_of_mem _ hh')

/-- The class `0x10000` belongs to a full bucket and to one that has room. -/
theorem found_iff_hasRoom_otherBucket :
    ((new 8).addAll [4, 8, 12, 16]).contain 4 = some 4 ∧
      ((new 8).addAll [4, 8, 12, 16]).HasRoom 0x10000 ∧
      ((new 8).addAll [4, 8, 12, 16]).StaysFound (fun _ => 0) 0 0x10000 7 := by
  have hroom : ((new 8).addAll [4, 8, 12, 16]).HasRoom 0x10000 :=
    ⟨_, Or.inr rfl, 0, by decide, Or.inl (by decide)⟩
  exact ⟨by decide, hroom, (found_iff_hasRoom (fun _ => 0)
    ((Reachable.new 8 (by decide)).addAll _ (by decide)) 0 (by decide) (by decide)).mpr hroom⟩

/-- Four buckets, of which the first two are full. The class `0x30001` is in the second one
and could as well be in the third one. -/
def crowded : Filter := (new 8).addAll [4, 8, 12, 16, 0x30001, 5, 9, 13]

/-- The class `0x10000` belongs to the two full buckets. Its `Add` makes two stores and
succeeds, but between the two the class `0x30001` is not found. -/
theorem kick_hides_class :
    Reachable crowded ∧ (crowded.add (fun _ => 0) 0 0x10000 7).1 = .ok ∧
      crowded.contain 0x30001 = some 0x30001 ∧
      (crowded.stores (fun _ => 0) 0 0x10000 7).length = 2 ∧
      (crowded.during (fun _ => 0) 0 0x10000 7 1).contain 0x30001 = none ∧
      ¬ crowded.StaysFound (fun _ => 0) 0 0x10000 7 := by
  have hfound : crowded.contain 0x30001 = some 0x30001 := by decide
  have hlen : (crowded.stores (fun _ => 0) 0 0x10000 7).length = 2 := by decide
  have hnone : (crowded.during (fun _ => 0) 0 0x10000 7 1).contain 0x30001 = none := by decide
  refine ⟨(Reachable.new 8 (by decide)).addAll _ (by decide), by decide, hfound, hlen, hnone, ?_⟩
  intro h
  have hstill := h 1 Nat.one_pos (by omega) 0x30001 (by decide) _ hfound
  rw [hnone] at hstill
  exact absurd hstill (by simp)

end Filter

/-! ## The swap of the tables -/

namespace Swap

open Run

/-- How far `Rehash` has come after `TransferData`. -/
inductive Stage where
  | transferred
  | flagged
  | deleted
  | swapped
  | cleared
deriving DecidableEq, Repr

/-- The two tables. -/
inductive Which where
  | old
  | alt
deriving DecidableEq, Repr

/-- `is_deleting_`. -/
def Stage.isDeleting : Stage → Bool
  | .transferred | .cleared => false
  | .flagged | .deleted | .swapped => true

/-- Where `table_` points to. -/
def Stage.table : Stage → Which
  | .transferred | .flagged | .deleted => .old
  | .swapped | .cleared => .alt

/-- A reader in `Get`: it has found `is_deleting_` false, and then it has computed the two
buckets of its class from the number of buckets of `*table_`. Which table that was is not in
the source. -/
inductive Reader where
  | idle
  | observed (c : ℕ)
  | computed (c i₁ i₂ : ℕ) (source : Which)
deriving DecidableEq, Repr

/-- A record of a search: the class, the table that its buckets were computed from, the table
that was searched, whether that had been deleted, and the file number found. -/
structure Search where
  cls : ℕ
  source : Which
  target : Which
  deleted : Bool
  found : Option ℕ
deriving DecidableEq, Repr

/-- The end of one `Rehash`, any number of readers, and their searches so far. -/
structure State where
  stage : Stage
  readers : ℕ → Reader
  searches : List Search

def init : State := ⟨.transferred, fun _ => .idle, []⟩

/-- The atomic steps: four of `Rehash`, and three of a reader. -/
inductive Step where
  | setDeleting
  | deleteTable
  | setTable
  | clearDeleting
  | observe (reader c : ℕ)
  | compute (reader : ℕ)
  | search (reader : ℕ)
deriving DecidableEq, Repr

section Tables

-- the filter before and after the rehash
variable (old alt : Filter)

/-- The filter with one of the two tables. -/
def tableOf : Which → Filter
  | .old => old
  | .alt => alt

/-- `FindSlotInBuckets64` on `*table_`; there is no result if it has been deleted. -/
def searchTable (stage : Stage) (c i₁ i₂ : ℕ) : Option ℕ :=
  if stage = .deleted then none
  else
    let T := (tableOf old alt stage.table).table
    (findSlot T i₁ i₂ (fingerprint c)).map fun p => T p % 2 ^ 32

/-- A step of `Rehash`. -/
def State.advance (s : State) (before after : Stage) : Option State :=
  if s.stage = before then some { s with stage := after } else none

/-- One atomic step. A reader waits while `is_deleting_` is set. -/
def step (s : State) : Step → Option State
  | .setDeleting => s.advance .transferred .flagged
  | .deleteTable => s.advance .flagged .deleted
  | .setTable => s.advance .deleted .swapped
  | .clearDeleting => s.advance .swapped .cleared
  | .observe r c =>
    match s.readers r with
    | .idle =>
      if s.stage.isDeleting then none
      else some { s with readers := Function.update s.readers r (.observed c) }
    | _ => none
  | .compute r =>
    match s.readers r with
    | .observed c =>
      let n := (tableOf old alt s.stage.table).numBuckets
      let i₁ := indexHash c n
      let i₂ := altIndex i₁ (fingerprint c) n
      some { s with
        readers := Function.update s.readers r (.computed c i₁ i₂ s.stage.table) }
    | _ => none
  | .search r =>
    match s.readers r with
    | .computed c i₁ i₂ source =>
      some { s with
        readers := Function.update s.readers r .idle
        searches := ⟨c, source, s.stage.table, s.stage = .deleted,
          searchTable old alt s.stage c i₁ i₂⟩ :: s.searches }
    | _ => none

/-- What a search has to be: of a table that is not deleted, with the buckets of that table,
and with a result if both tables contain the class. -/
structure Sound (q : Search) : Prop where
  alive : q.deleted = false
  same : q.source = q.target
  finds : (old.contain q.cls).isSome → (alt.contain q.cls).isSome → q.found.isSome

/-- **The property**: every search so far was sound. -/
def Safe (s : State) : Prop := ∀ q ∈ s.searches, Sound old alt q

/-- The condition on a step: a search with buckets that were computed from the old table comes
before the old table is deleted. -/
def BeforeDelete (s : State) : Step → Prop
  | .search r => ∀ c i₁ i₂, s.readers r = .computed c i₁ i₂ .old →
      s.stage = .transferred ∨ s.stage = .flagged
  | _ => True

/-- The buckets of a reader are those of the table they were computed from, and they come from
the new table only after the swap. -/
structure Inv (s : State) : Prop where
  safe : Safe old alt s
  buckets : ∀ r c i₁ i₂ source, s.readers r = .computed c i₁ i₂ source →
    i₁ = indexHash c (tableOf old alt source).numBuckets ∧
      i₂ = altIndex i₁ (fingerprint c) (tableOf old alt source).numBuckets ∧
      (source = .alt → s.stage.table = .alt)

variable {old alt} {s s' : State}

theorem init_inv : Inv old alt init := ⟨nofun, nofun⟩

theorem Inv.advance (h : Inv old alt s) {before after : Stage}
    (hstep : s.advance before after = some s')
    (hmono : before.table = .alt → after.table = .alt) : Inv old alt s' := by
  unfold State.advance at hstep
  split_ifs at hstep with hstage
  obtain rfl := Option.some.inj hstep
  refine ⟨h.safe, fun r c i₁ i₂ source hr => ?_⟩
  obtain ⟨h₁, h₂, halt⟩ := h.buckets r c i₁ i₂ source hr
  exact ⟨h₁, h₂, fun hsource => hmono (hstage ▸ halt hsource)⟩

theorem Inv.setReader (h : Inv old alt s) (r : ℕ) {reader : Reader}
    (hnew : ∀ c i₁ i₂ source, reader = .computed c i₁ i₂ source →
      i₁ = indexHash c (tableOf old alt source).numBuckets ∧
        i₂ = altIndex i₁ (fingerprint c) (tableOf old alt source).numBuckets ∧
        (source = .alt → s.stage.table = .alt)) :
    Inv old alt { s with readers := Function.update s.readers r reader } := by
  refine ⟨h.safe, fun r' c i₁ i₂ source hr => ?_⟩
  dsimp only at hr
  rcases eq_or_ne r' r with rfl | hne
  · rw [Function.update_self] at hr
    exact hnew c i₁ i₂ source hr
  · rw [Function.update_of_ne hne] at hr
    exact h.buckets r' c i₁ i₂ source hr

theorem sound_search {stage : Stage} {c i₁ i₂ : ℕ} (halive : stage ≠ .deleted)
    (h₁ : i₁ = indexHash c (tableOf old alt stage.table).numBuckets)
    (h₂ : i₂ = altIndex i₁ (fingerprint c) (tableOf old alt stage.table).numBuckets) :
    Sound old alt ⟨c, stage.table, stage.table, stage = .deleted,
      searchTable old alt stage c i₁ i₂⟩ := by
  have hfound : searchTable old alt stage c i₁ i₂ = (tableOf old alt stage.table).contain c := by
    rw [searchTable, if_neg halive, h₂, h₁]
    rfl
  refine ⟨decide_eq_false halive, rfl, fun hold halt => ?_⟩
  dsimp only at hold halt ⊢
  rw [hfound]
  cases stage.table with
  | old => exact hold
  | alt => exact halt

theorem step_inv {a : Step} (h : Inv old alt s) (hok : BeforeDelete s a)
    (hstep : step old alt s a = some s') : Inv old alt s' := by
  cases a with
  | setDeleting => exact h.advance hstep (by decide)
  | deleteTable => exact h.advance hstep (by decide)
  | setTable => exact h.advance hstep (by decide)
  | clearDeleting => exact h.advance hstep (by decide)
  | observe r c =>
    simp only [step] at hstep
    split at hstep
    · split_ifs at hstep
      obtain rfl := Option.some.inj hstep
      exact h.setReader r nofun
    · exact absurd hstep (by simp)
  | compute r =>
    simp only [step] at hstep
    split at hstep
    · obtain rfl := Option.some.inj hstep
      refine h.setReader r fun c i₁ i₂ source heq => ?_
      obtain ⟨rfl, rfl, rfl, rfl⟩ := Reader.computed.inj heq
      exact ⟨rfl, rfl, id⟩
    · exact absurd hstep (by simp)
  | search r =>
    simp only [step] at hstep
    split at hstep
    · rename_i c i₁ i₂ source hr
      obtain rfl := Option.some.inj hstep
      obtain ⟨h₁, h₂, halt⟩ := h.buckets r c i₁ i₂ source hr
      -- the buckets belong to the table that is searched, and it is there
      obtain ⟨halive, rfl⟩ : s.stage ≠ .deleted ∧ source = s.stage.table := by
        cases source with
        | old => rcases hok c i₁ i₂ hr with hs | hs <;> simp [hs, Stage.table]
        | alt =>
          refine ⟨fun hs => ?_, (halt rfl).symm⟩
          have htable := halt rfl
          rw [hs] at htable
          exact absurd htable (by decide)
      have hinv : Inv old alt { s with readers := Function.update s.readers r .idle } :=
        h.setReader r nofun
      refine ⟨fun q hq => ?_, hinv.buckets⟩
      rcases List.mem_cons.mp hq with rfl | hq
      · exact sound_search halive h₁ h₂
      · exact h.safe q hq
    · exact absurd hstep (by simp)

/-- **When the swap is safe for readers.** In every state of a run all searches were of a table
that was not deleted, with the buckets of that table, and found what both tables contain, if
and only if every search with buckets of the old table came before the deletion. -/
theorem safe_iff_beforeDelete (old alt : Filter) (steps : List Step) :
    Always (step old alt) (Safe old alt) init steps ↔
      Meets (step old alt) BeforeDelete init steps := by
  refine always_iff_meets (fun s h => h.safe) (fun s a s' h _ => step_inv h) ?_ init_inv
    (meets_of_forall (fun _ _ => trivial) _ _)
  intro s a h _ hbad
  cases a with
  | search r =>
    -- a search with old buckets, after the deletion
    have hlate : ∃ c i₁ i₂, s.readers r = .computed c i₁ i₂ .old ∧ s.stage ≠ .transferred ∧
        s.stage ≠ .flagged := by
      by_contra hnone
      refine hbad fun c i₁ i₂ hr => ?_
      by_contra hstage
      exact hnone ⟨c, i₁, i₂, hr, not_or.mp hstage⟩
    obtain ⟨c, i₁, i₂, hr, h₁, h₂⟩ := hlate
    refine ⟨_, by rw [step, hr], fun hsafe => ?_⟩
    obtain ⟨halive, hsame, -⟩ := hsafe _ List.mem_cons_self
    dsimp only at halive hsame
    cases hstage : s.stage with
    | transferred => exact h₁ hstage
    | flagged => exact h₂ hstage
    | deleted =>
      rw [hstage] at halive
      exact absurd halive (by decide)
    | swapped =>
      rw [hstage] at hsame
      exact absurd hsame (by decide)
    | cleared =>
      rw [hstage] at hsame
      exact absurd hsame (by decide)
  | _ => exact absurd trivial hbad

/-- A filter with the class `7`, and the same filter after a rehash. -/
def oneKey : Filter := (Filter.new 8).addAll [7]

/-- See `oneKey`. -/
def oneKeyRehashed : Filter := ((oneKey.rehash (fun _ => 0) 0).map Prod.fst).getD oneKey

/-- A reader that has computed its buckets searches the table after the deletion. -/
def searchAfterDelete : List Step :=
  [.observe 0 7, .compute 0, .setDeleting, .deleteTable, .search 0]

/-- A reader that has computed its buckets searches the new table. -/
def searchAfterSwap : List Step :=
  [.observe 0 7, .compute 0, .setDeleting, .deleteTable, .setTable, .clearDeleting, .search 0]

/-- Both windows are open: the reader searches a deleted table, or it searches the new table
with the buckets of the old one and does not find a key that both contain. -/
theorem search_outlives_table :
    (oneKey.rehash (fun _ => 0) 0).isSome ∧
      oneKey.contain 7 = some 7 ∧ oneKeyRehashed.contain 7 = some 7 ∧
      (runFrom (step oneKey oneKeyRehashed) init searchAfterDelete).map State.searches =
        some [⟨7, .old, .old, true, none⟩] ∧
      (runFrom (step oneKey oneKeyRehashed) init searchAfterSwap).map State.searches =
        some [⟨7, .old, .alt, false, none⟩] ∧
      ¬ Always (step oneKey oneKeyRehashed) (Safe oneKey oneKeyRehashed) init searchAfterDelete ∧
      ¬ Always (step oneKey oneKeyRehashed) (Safe oneKey oneKeyRehashed) init searchAfterSwap := by
  refine ⟨by decide, by decide, by decide, by decide, by decide, ?_, ?_⟩
  · intro h
    have hsafe := (h.2 _ rfl).2 _ rfl |>.2 _ rfl |>.2 _ rfl |>.2 _ rfl
    exact absurd (hsafe _ List.mem_cons_self).alive (by decide)
  · intro h
    have hsafe := (h.2 _ rfl).2 _ rfl |>.2 _ rfl |>.2 _ rfl |>.2 _ rfl |>.2 _ rfl |>.2 _ rfl
    exact absurd (hsafe _ List.mem_cons_self).same (by decide)

end Tables

end Swap

end McfKv.Cuckoo
