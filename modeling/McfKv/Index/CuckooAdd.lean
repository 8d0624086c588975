import McfKv.Index.CuckooReaders

/-!
# What an `Add` does to a cuckoo filter (`multi-cuckoo-index/cuckoo.cc`)

`Contain` cannot tell two keys apart that have the same first bucket and the same
fingerprint (`Same`). `Found` is what a table says about a class, whatever the size of the
table, and the walk of `AddImpl` is described by what table and slot in hand say together:
no kick changes that.

The filters are those of `Filter.Reachable`: of any size, after any calls.
-/

namespace McfKv.Cuckoo

open McfKv.Cuckoo.Filter

/-! ## What a table says about a class -/

section Found

variable {e c c' b : ℕ} {T : Table} {p : ℕ × ℕ}

/-- `Contain` cannot tell the classes apart. -/
def Same (e c c' : ℕ) : Prop := c % 2 ^ e = c' % 2 ^ e ∧ fingerprint c = fingerprint c'

theorem Same.symm (h : Same e c c') : Same e c' c := ⟨h.1.symm, h.2.symm⟩

theorem Same.trans {c'' : ℕ} (h : Same e c c') (h' : Same e c' c'') : Same e c c'' :=
  ⟨h.1.trans h'.1, h.2.trans h'.2⟩

/-- With more than one bucket all classes can be told apart. -/
theorem Same.eq (h : Same e c c') (he : e ≠ 0) : c = c' := by
  have hpow : 1 < 2 ^ e := Nat.one_lt_two_pow he
  obtain ⟨hmod, hfp⟩ := h
  unfold fingerprint at hfp
  split_ifs at hfp with h0 h0' h0'
  · exact h0.trans h0'.symm
  · rw [h0, ← hfp, Nat.zero_mod, Nat.mod_eq_of_lt hpow] at hmod
    exact absurd hmod (by decide)
  · rw [h0', hfp, Nat.zero_mod, Nat.mod_eq_of_lt hpow] at hmod
    exact absurd hmod (by decide)
  · exact hfp

theorem Same.home_iff (h : Same e c c') : Home e c b ↔ Home e c' b := by
  unfold Home
  rw [h.1, h.2]

theorem same_of_home (he : e ≤ 32) (hfp : fingerprint c = fingerprint c') (hb : Home e c b)
    (hb' : Home e c' b) : Same e c c' := by
  rcases eq_or_home_iff he hfp with rfl | ⟨h, h'⟩
  · exact ⟨rfl, rfl⟩
  · exact ⟨((h b).mp hb).symm.trans ((h' b).mp hb'), hfp⟩

theorem Seen.iff_same (he : e ≤ 32) (h : Seen e T c p) (c' : ℕ) : Seen e T c' p ↔ Same e c' c := by
  constructor
  · intro h'
    exact same_of_home he (h'.2.2.symm.trans h.2.2) h'.2.1 h.2.1
  · intro hsame
    exact ⟨h.1, hsame.home_iff.mpr h.2.1, h.2.2.trans hsame.2.symm⟩

/-- A table says that a class has a file. -/
def Found (e : ℕ) (T : Table) (c v : ℕ) : Prop := ∃ p, Seen e T c p ∧ T p % 2 ^ 32 = v

/-- A slot in hand says that a class has a file. -/
def InHand (e h slot c v : ℕ) : Prop := Same e c h ∧ slot % 2 ^ 32 = v

theorem found_iff_at (p : ℕ × ℕ) (c v : ℕ) : Found e T c v ↔ (Seen e T c p ∧ T p % 2 ^ 32 = v) ∨
    ∃ p', p' ≠ p ∧ Seen e T c p' ∧ T p' % 2 ^ 32 = v := by
  constructor
  · rintro ⟨p', hs, hv⟩
    by_cases hp : p' = p
    · exact Or.inl (hp ▸ ⟨hs, hv⟩)
    · exact Or.inr ⟨p', hp, hs, hv⟩
  · rintro (h | ⟨p', -, h⟩)
    · exact ⟨p, h⟩
    · exact ⟨p', h⟩

variable {j slot : ℕ}

section

variable (he : e ≤ 32) (hj : j < slotPerBucket) (hb : Home e c b)
  (hfp : slot / 2 ^ 32 = fingerprint c)

include he hj hb hfp

theorem found_update (x v : ℕ) : Found e (Function.update T (b, j) slot) x v ↔ InHand e c slot x v ∨
    ∃ p, p ≠ (b, j) ∧ Seen e T x p ∧ T p % 2 ^ 32 = v := by
  have hhere : Seen e (Function.update T (b, j) slot) c (b, j) :=
    ⟨hj, hb, by rw [Function.update_self, hfp]⟩
  rw [found_iff_at (b, j), hhere.iff_same he, Function.update_self]
  refine or_congr_right (exists_congr fun p => and_congr_right fun hp => ?_)
  rw [seen_update_of_ne hp, Function.update_of_ne hp]

theorem found_fill (hfree : T (b, j) = 0) (x v : ℕ) :
    Found e (Function.update T (b, j) slot) x v ↔ Found e T x v ∨ InHand e c slot x v := by
  have hnot : ¬ (Seen e T x (b, j) ∧ T (b, j) % 2 ^ 32 = v) := fun h => h.1.ne_zero hfree
  rw [found_update he hj hb hfp, found_iff_at (b, j) x v, or_iff_right hnot, or_comm]

/-- **A kick** leaves what table and hand say together as it is. -/
theorem found_kick (hold : Seen e T c' (b, j)) (x v : ℕ) :
    Found e (Function.update T (b, j) slot) x v ∨ InHand e c' (T (b, j)) x v ↔
      Found e T x v ∨ InHand e c slot x v := by
  rw [found_update he hj hb hfp, found_iff_at (b, j) x v, hold.iff_same he]
  constructor
  · rintro ((hnew | hrest) | hvictim)
    · exact Or.inr hnew
    · exact Or.inl (Or.inr hrest)
    · exact Or.inl (Or.inl hvictim)
  · rintro ((hvictim | hrest) | hnew)
    · exact Or.inr hvictim
    · exact Or.inl (Or.inr hrest)
    · exact Or.inl (Or.inl hnew)

end

end Found

/-! ## The walk of `AddImpl` -/

section Walk

variable (rand : ℕ → ℕ) {e : ℕ}

/-- The walk found room: the slot is in the table. -/
def EndsInPlace (e c visits : ℕ) (kickout : Bool) (T : Table) (draws i slot : ℕ) : Prop :=
  ∃ T' draws', addLoop rand (2 ^ e) visits kickout T draws i slot = ⟨.ok, T', draws'⟩ ∧
    (∀ x v, Found e T' x v ↔ Found e T x v ∨ InHand e c slot x v) ∧
    ∀ accept, WalkEnds rand accept (2 ^ e) visits kickout T draws i slot

/-- The walk found no room: a slot is left in hand that is not in the table. -/
def EndsInHand (e c visits : ℕ) (kickout : Bool) (T : Table) (draws i slot : ℕ) : Prop :=
  ∃ T' draws' c' i' slot',
    addLoop rand (2 ^ e) visits kickout T draws i slot =
        ⟨.ioError "failed to insert!", T', draws'⟩ ∧
      c' < 2 ^ 32 ∧ Home e c' i' ∧ slot' / 2 ^ 32 = fingerprint c' ∧ (∀ p, ¬ Seen e T' c' p) ∧
      (∀ x v, Found e T' x v ∨ InHand e c' slot' x v ↔ Found e T x v ∨ InHand e c slot x v) ∧
      ∀ accept, WalkEnds rand accept (2 ^ e) visits kickout T draws i slot ↔ accept i' slot'

/-- **The walk of `AddImpl`** with a class that the table does not have. -/
theorem addLoop_ends (he : e ≤ 32) (visits : ℕ) :
    ∀ kickout T draws i slot c, Tidy e T → c < 2 ^ 32 → Home e c i →
      slot / 2 ^ 32 = fingerprint c → (∀ p, ¬ Seen e T c p) →
      (i = c % 2 ^ e ∨ kickout = true ∧ ∀ j < slotPerBucket, T (c % 2 ^ e, j) ≠ 0) →
      EndsInPlace rand e c visits kickout T draws i slot ∨
        EndsInHand rand e c visits kickout T draws i slot := by
  induction visits with
  | zero =>
    intro kickout T draws i slot c _ hc hi hfp hnew _
    exact Or.inr ⟨T, draws, c, i, slot, rfl, hc, hi, hfp, hnew, fun _ _ => Iff.rfl,
      fun _ => Iff.rfl⟩
  | succ visits ih =>
    intro kickout T draws i slot c h hc hi hfp hnew hfirst
    unfold EndsInPlace EndsInHand addLoop WalkEnds
    rcases scan_cases T i slot with ⟨j, hj, heq, hfree, -⟩ | ⟨-, j, hj, hsame⟩ | ⟨heq, hall⟩
    · rw [heq]
      exact Or.inl ⟨_, _, rfl, found_fill he hj hi hfp hfree, fun _ => Or.inl ⟨j, hj, hfree⟩⟩
    · exact absurd ⟨hj, hi, hsame.trans hfp⟩ (hnew (i, j))
    · have hfull : ¬∃ j < slotPerBucket, T (i, j) = 0 := by
        rintro ⟨j, hj, h0⟩
        exact (hall j hj).1 h0
      rw [heq]
      simp only [hfull, false_or]
      cases kickout with
      | false =>
        -- on to the second bucket, with the slot still in hand
        have hi' : i = c % 2 ^ e := hfirst.resolve_right fun hk => Bool.false_ne_true hk.1
        simp only [Bool.false_eq_true, if_false]
        rw [hfp]
        refine ih true T draws _ slot c h hc (hi.alt he) hfp hnew (Or.inr ⟨rfl, ?_⟩)
        exact fun j hj => hi' ▸ (hall j hj).1
      | true =>
        have hj : rand draws % slotPerBucket < slotPerBucket := Nat.mod_lt _ (by decide)
        obtain ⟨c', hc', hold⟩ := h.seen _ (hall _ hj).1
        have hkick := h.write he hc hj hi hfp (fun p _ => hnew p)
          (fun j' hj' => (hall j' (hj'.trans hj)).1) (hfirst.imp_right And.right)
        have hboth := found_kick (T := T) he hj hi hfp hold
        have hfull' :=
          h.first_full_of_kick (slot_ne_zero hfp) (fun j' hj' => (hall j' hj').1) hold
        simp only [if_true]
        rw [show altIndex i (T (i, rand draws % slotPerBucket) / 2 ^ 32) (2 ^ e) =
          altIndex i (fingerprint c') (2 ^ e) by rw [hold.2.2]]
        rcases ih true _ (draws + 1) _ _ c' hkick hc' (hold.2.1.alt he) hold.2.2
            (h.not_seen_of_kick he hi hfp hnew hold) (Or.inr ⟨rfl, hfull'⟩) with
          ⟨T', draws', hres, hfound, hends⟩ |
          ⟨T', draws', c₁, i₁, slot₁, hres, hc₁, hi₁, hfp₁, hgone, hfound, hends⟩
        · exact Or.inl ⟨T', draws', hres, fun x v => (hfound x v).trans (hboth x v), hends⟩
        · exact Or.inr ⟨T', draws', c₁, i₁, slot₁, hres, hc₁, hi₁, hfp₁, hgone,
            fun x v => (hfound x v).trans (hboth x v), hends⟩

theorem addLoop_of_seen {T : Table} (h : Tidy e T) {c slot : ℕ} {p : ℕ × ℕ}
    (hs : Seen e T c p) (hfp : slot / 2 ^ 32 = fingerprint c) (visits draws : ℕ) :
    (addLoop rand (2 ^ e) (visits + 2) false T draws (c % 2 ^ e) slot).table = T := by
  have hstop : ∀ fuel kickout, (addLoop rand (2 ^ e) (fuel + 1) kickout T draws p.1 slot).table =
      T := by
    intro fuel kickout
    unfold addLoop
    rcases scan_cases T p.1 slot with ⟨j, hj, -, hfree, hall⟩ | ⟨heq, -⟩ | ⟨-, hall⟩
    · exact absurd rfl (h.not_seen_of_free hfree hall hfp p hs)
    · rw [heq]
    · exact absurd rfl (not_seen_of_full hall hfp p hs)
  rcases hs.2.1 with hp | hp
  · rw [← hp]
    exact hstop (visits + 1) false
  · by_cases hfirst : p.1 = c % 2 ^ e
    · rw [← hfirst]
      exact hstop (visits + 1) false
    · -- the class is outside its first bucket, which is full
      unfold addLoop
      rcases scan_cases T (c % 2 ^ e) slot with ⟨j, hj, -, hfree, -⟩ | ⟨heq, -⟩ | ⟨heq, -⟩
      · exact absurd hfree ((h.first c p hs).resolve_left hfirst j hj)
      · rw [heq]
      · rw [heq]
        dsimp only
        rw [if_neg Bool.false_ne_true, hfp, ← hp]
        exact hstop visits true

theorem walkEnds_clip {E : ℕ} (accept : ℕ → ℕ → Prop) (visits : ℕ) (kickout : Bool) (T : Table)
    (draws i slot : ℕ) : WalkEnds rand accept (2 ^ E) visits kickout T draws i slot ↔
      WalkEnds rand accept (2 ^ min E 32) visits kickout T draws i slot := by
  induction visits generalizing kickout T draws i slot with
  | zero => rfl
  | succ visits ih =>
    unfold WalkEnds
    simp only [← altIndex_clip (E := E), ih]

end Walk

namespace Filter

variable {f : Filter} {E : ℕ} (rand : ℕ → ℕ)

variable {c slot h file : ℕ} {f' : Filter}

section

variable (hf : f.InOrder E)

include hf

/-- **`Contain`** returns what the table says. -/
theorem InOrder.contain_eq_some (hc : c < 2 ^ 32) (v : ℕ) :
    f.contain c = some v ↔ Found (min E 32) f.table c v := by
  unfold Filter.contain Found
  rw [Option.map_eq_some_iff]
  exact exists_congr fun p => and_congr_left' (hf.locate_eq_some hc)

theorem InOrder.not_seen (hc : c < 2 ^ 32) (hnone : f.contain c = none) (p : ℕ × ℕ) :
    ¬ Seen (min E 32) f.table c p := by
  intro hs
  have hsome := (hf.contain_eq_some hc _).mpr ⟨p, hs, rfl⟩
  rw [hnone] at hsome
  exact absurd hsome (by simp)

theorem InOrder.contain_congr (hf' : f'.InOrder E) (hc : c < 2 ^ 32)
    (h : ∀ v, Found (min E 32) f'.table c v ↔ Found (min E 32) f.table c v) :
    f'.contain c = f.contain c := by
  ext v
  exact (hf'.contain_eq_some hc v).trans ((h v).trans (hf.contain_eq_some hc v).symm)

theorem InOrder.addImpl_ends (draws : ℕ) (hc : c < 2 ^ 32) (hfp : slot / 2 ^ 32 = fingerprint c)
    (hnew : ∀ p, ¬ Seen (min E 32) f.table c p) :
    EndsInPlace rand (min E 32) c maxCuckoo false f.table draws (c % 2 ^ min E 32) slot ∨
      EndsInHand rand (min E 32) c maxCuckoo false f.table draws (c % 2 ^ min E 32) slot :=
  addLoop_ends rand (Nat.min_le_right E 32) maxCuckoo false f.table draws _ slot c hf.tidy hc
    (Or.inl rfl) hfp hnew (Or.inl rfl)

theorem InOrder.addImpl_eq (draws : ℕ) (hc : c < 2 ^ 32) {status : Status} {T' : Table} {draws' : ℕ}
    (hres : addLoop rand (2 ^ min E 32) maxCuckoo false f.table draws (c % 2 ^ min E 32) slot =
      ⟨status, T', draws'⟩) : f.addImpl rand draws (indexHash c f.numBuckets) slot = (status,
        { f with
          table := T'
          numItems := if status.isOk then f.numItems + 1 else f.numItems }, draws') := by
  unfold Filter.addImpl
  rw [hf.numBuckets, indexHash_clip hc, addLoop_clip, hres]

/-! ## A successful `Add` -/

theorem InOrder.contain_of_added (hf' : f'.InOrder E) (hh : h < 2 ^ 32)
    (hslot : slot % 2 ^ 32 = file) (hfound : ∀ x v, Found (min E 32) f'.table x v ↔
      Found (min E 32) f.table x v ∨ InHand (min E 32) h slot x v) : f'.contain h = some file ∧
      ∀ c < 2 ^ 32, ¬ Same (min E 32) c h → f'.contain c = f.contain c := by
  refine ⟨?_, fun c hc hne => ?_⟩
  · rw [hf'.contain_eq_some hh, hfound]
    exact Or.inr ⟨⟨rfl, rfl⟩, hslot⟩
  · exact hf.contain_congr hf' hc fun v =>
      (hfound c v).trans (or_iff_left fun hhand => hne hhand.1)

/-- **`Update`** changes what is found for the classes that cannot be told apart from the key. -/
theorem InOrder.contain_update (hh : h < 2 ^ 32) (hfile : file < 2 ^ 32)
    (hsome : f.contain h ≠ none) : (f.update h file).contain h = some file ∧
      ∀ c < 2 ^ 32, ¬ Same (min E 32) c h → (f.update h file).contain c = f.contain c := by
  obtain ⟨v, hv⟩ := Option.ne_none_iff_exists'.mp hsome
  obtain ⟨p, hs, -⟩ := (hf.contain_eq_some hh v).mp hv
  have hf' := hf.update hh hfile
  unfold Filter.update at hf' ⊢
  rw [(hf.locate_eq_some hh).mpr hs] at hf' ⊢
  have hfound := found_update (T := f.table) (Nat.min_le_right E 32) hs.1 hs.2.1 (slotOf_div hfile)
  refine ⟨?_, fun c hc hne => hf.contain_congr hf' hc fun v => ?_⟩
  · rw [hf'.contain_eq_some hh]
    exact (hfound h file).mpr (Or.inl ⟨⟨rfl, rfl⟩, slotOf_mod hfile⟩)
  · have hhere : ¬ (Seen (min E 32) f.table c p ∧ f.table p % 2 ^ 32 = v) := fun hp =>
      hne ((hs.iff_same (Nat.min_le_right E 32) c).mp hp.1)
    have hold := found_iff_at (e := min E 32) (T := f.table) p c v
    rw [or_iff_right hhere] at hold
    exact ((hfound c v).trans (or_iff_right fun hhand => hne hhand.1)).trans hold.symm

end

/-- **`Add` of a key that is not found** returns `OK` or `IOError`. After `OK` the key is found
with its file number, and every key with another first bucket or another fingerprint gets the
answer that it got before. -/
theorem add_of_absent (hf : Reachable f) (draws : ℕ) {h file : ℕ} (hh : h < 2 ^ 32)
    (hfile : file < 2 ^ 32) (hnone : f.contain h = none) :
    ∃ f' draws',
      (f.add rand draws h file = (.ok, f', draws') ∧ f'.contain h = some file ∧
        ∀ c < 2 ^ 32, (indexHash c f.numBuckets, fingerprint c) ≠
          (indexHash h f.numBuckets, fingerprint h) → f'.contain c = f.contain c) ∨
      f.add rand draws h file = (.ioError "failed to insert!", f', draws') := by
  obtain ⟨E, hf⟩ := hf.inOrder
  have hfp : slotOf h file / 2 ^ 32 = fingerprint h := slotOf_div hfile
  have hf' := hf.add rand draws hh hfile
  rcases hf.addImpl_ends rand draws hh hfp (hf.not_seen hh hnone) with
    ⟨T', draws', hres, hfound, -⟩ | ⟨T', draws', _, _, _, hres, -⟩
  · have heq := hf.addImpl_eq rand draws hh hres
    unfold Filter.add at hf' ⊢
    rw [heq] at hf' ⊢
    obtain ⟨hnew, hold⟩ := hf.contain_of_added hf' hh (slotOf_mod hfile) hfound
    refine ⟨_, _, Or.inl ⟨rfl, hnew, fun c hc hne => hold c hc fun hsame => hne ?_⟩⟩
    rw [hf.numBuckets, indexHash_clip hc, indexHash_clip hh, hsame.1, hsame.2]
  · exact ⟨_, _, Or.inr (hf.addImpl_eq rand draws hh hres)⟩

/-- Two successful calls of `Add` on a small filter. -/
theorem add_of_absent_second : ∃ f' draws',
    ((new 8).addAll [5]).add (fun _ => 0) 0 9 7 = (.ok, f', draws') ∧ f'.contain 9 = some 7 ∧
      f'.contain 5 = some 5 := by
  have hreach : Reachable ((new 8).addAll [5]) :=
    (Reachable.new 8 (by decide)).addAll _ (by decide)
  have hok : (((new 8).addAll [5]).add (fun _ => 0) 0 9 7).1 = .ok := by decide
  obtain ⟨f', draws', ⟨heq, hnew, hold⟩ | heq⟩ :=
    add_of_absent (fun _ => 0) hreach 0 (show 9 < 2 ^ 32 by decide) (show 7 < 2 ^ 32 by decide)
      (by decide)
  · refine ⟨f', draws', heq, hnew, ?_⟩
    rw [hold 5 (by decide) (by decide)]
    decide
  · rw [heq] at hok
    exact absurd hok Status.noConfusion

/-! ## A failed `Add` -/

/-- **The property.** If `Add` fails, then every class that was found is found afterwards,
with its file number. -/
def FailureKeeps (f : Filter) (draws h file : ℕ) : Prop :=
  (f.add rand draws h file).1 ≠ .ok → ∀ c < 2 ^ 32, ∀ v,
    f.contain c = some v → (f.add rand draws h file).2.1.contain c = some v

theorem InOrder.add_of_found (hf : f.InOrder E) (draws : ℕ) (hh : h < 2 ^ 32)
    (hfile : file < 2 ^ 32) (hsome : f.contain h ≠ none) (c : ℕ) :
    (f.add rand draws h file).2.1.contain c = f.contain c := by
  obtain ⟨v, hv⟩ := Option.ne_none_iff_exists'.mp hsome
  obtain ⟨p, hs, -⟩ := (hf.contain_eq_some hh v).mp hv
  have htable : (f.add rand draws h file).2.1.table = f.table := by
    unfold Filter.add Filter.addImpl
    dsimp only
    rw [hf.numBuckets, indexHash_clip hh, addLoop_clip]
    exact addLoop_of_seen rand hf.tidy hs (slotOf_div hfile) 498 draws
  unfold Filter.contain Filter.locate
  rw [htable]
  rfl

theorem InOrder.ownSlot_iff (hf : f.InOrder E) {i : ℕ} (hh : h < 2 ^ 32) (hfile : file < 2 ^ 32)
    (hi : Home (min E 32) c i) (hfp : slot / 2 ^ 32 = fingerprint c) :
    f.OwnSlot h file i slot ↔ InHand (min E 32) c slot h file := by
  constructor
  · rintro ⟨rfl, hown⟩
    rw [slotOf_div hfile] at hfp
    exact ⟨same_of_home (Nat.min_le_right E 32) hfp ((hf.home_iff hh i).mpr hown) hi,
      slotOf_mod hfile⟩
  · rintro ⟨hsame, hv⟩
    refine ⟨?_, (hf.home_iff hh i).mp (hsame.home_iff.mpr hi)⟩
    rw [← Nat.div_add_mod slot (2 ^ 32), hfp, hv, ← hsame.2, Nat.mul_comm]
    rfl

theorem InOrder.contain_of_dropped (hf : f.InOrder E) (hf' : f'.InOrder E) {c' slot' : ℕ}
    (hnew : ∀ p, ¬ Seen (min E 32) f.table h p) (hgone : ∀ p, ¬ Seen (min E 32) f'.table c' p)
    (hsame : Same (min E 32) h c')
    (hfound : ∀ x v, Found (min E 32) f'.table x v ∨ InHand (min E 32) c' slot' x v ↔
      Found (min E 32) f.table x v ∨ InHand (min E 32) h slot x v) (hc : c < 2 ^ 32) :
    f'.contain c = f.contain c := by
  have he := Nat.min_le_right E 32
  refine hf.contain_congr hf' hc fun v => ⟨fun hafter => ?_, fun hbefore => ?_⟩
  · refine ((hfound c v).mp (Or.inl hafter)).resolve_right fun hhand => ?_
    obtain ⟨p, hs, -⟩ := hafter
    exact hgone p ((hs.iff_same he c').mpr (hhand.1.trans hsame).symm)
  · refine ((hfound c v).mpr (Or.inl hbefore)).resolve_right fun hhand => ?_
    obtain ⟨p, hs, -⟩ := hbefore
    exact hnew p ((hs.iff_same he h).mpr (hsame.trans hhand.1.symm))

/-- An `Add` that fails, and does not leave its class in the filter, ends with the new slot in
hand. -/
theorem Reachable.addEnds_of_absent (hf : Reachable f) {draws : ℕ} (hh : h < 2 ^ 32)
    (hfile : file < 2 ^ 32) (hnone : f.contain h = none)
    (hfail : (f.add rand draws h file).1 ≠ .ok)
    (hgone : (f.add rand draws h file).2.1.contain h = none) : f.AddEnds rand draws h file := by
  obtain ⟨E, hf⟩ := hf.inOrder
  have hf' := hf.add rand draws hh hfile
  unfold AddEnds
  rw [hf.numBuckets, walkEnds_clip, indexHash_clip hh]
  rcases hf.addImpl_ends rand draws hh (slotOf_div hfile) (hf.not_seen hh hnone) with
    ⟨T', draws', hres, -⟩ | ⟨T', draws', c', i', slot', hres, hc', hi', hfp', -, hfound, hends⟩
  · have heq : f.add rand draws h file = _ := hf.addImpl_eq rand draws hh hres
    rw [heq] at hfail
    exact absurd rfl hfail
  · have heq : f.add rand draws h file = _ := hf.addImpl_eq rand draws hh hres
    rw [heq] at hf' hgone
    rw [hends, hf.ownSlot_iff hh hfile hi' hfp']
    refine ((hfound h file).mpr (Or.inr ⟨⟨rfl, rfl⟩, slotOf_mod hfile⟩)).resolve_left fun hs => ?_
    rw [(hf'.contain_eq_some hh _).mpr hs] at hgone
    exact absurd hgone (by simp)

/-- **When a failed `Add` loses no other key**: if the key is in the filter already, or the walk
finds room, or it ends with the new slot in hand. -/
theorem failureKeeps_iff (hf : Reachable f) (draws : ℕ) {h file : ℕ} (hh : h < 2 ^ 32)
    (hfile : file < 2 ^ 32) :
    f.FailureKeeps rand draws h file ↔ f.contain h ≠ none ∨ f.AddEnds rand draws h file := by
  obtain ⟨E, hf⟩ := hf.inOrder
  by_cases hsome : f.contain h ≠ none
  · refine iff_of_true (fun _ c _ v hv => ?_) (Or.inl hsome)
    rw [hf.add_of_found rand draws hh hfile hsome, hv]
  · have hnone : f.contain h = none := not_not.mp hsome
    have hfp : slotOf h file / 2 ^ 32 = fingerprint h := slotOf_div hfile
    have hnew := hf.not_seen hh hnone
    have hf' := hf.add rand draws hh hfile
    rw [or_iff_right hsome]
    unfold FailureKeeps AddEnds
    rw [hf.numBuckets, walkEnds_clip, indexHash_clip hh]
    rcases hf.addImpl_ends rand draws hh hfp hnew with
      ⟨T', draws', hres, -, hends⟩ | ⟨T', draws', c', i', slot', hres, hc', hi', hfp', hgone,
        hfound, hends⟩
    · have heq : f.add rand draws h file = _ := hf.addImpl_eq rand draws hh hres
      refine iff_of_true (fun hfail => ?_) (hends _)
      rw [heq] at hfail
      exact absurd rfl hfail
    · have heq : f.add rand draws h file = _ := hf.addImpl_eq rand draws hh hres
      rw [heq] at hf' ⊢
      rw [hends, hf.ownSlot_iff hh hfile hi' hfp']
      constructor
      · intro hkeeps
        -- the class in hand is found no more, so it was not found before
        have hlost : ¬ Found (min E 32) f.table c' (slot' % 2 ^ 32) := by
          intro hwas
          have hstill := hkeeps Status.noConfusion c' hc' _ ((hf.contain_eq_some hc' _).mpr hwas)
          obtain ⟨p, hs, -⟩ := (hf'.contain_eq_some hc' _).mp hstill
          exact hgone p hs
        have hown := ((hfound c' _).mp (Or.inr ⟨⟨rfl, rfl⟩, rfl⟩)).resolve_left hlost
        exact ⟨hown.1.symm, hown.2.symm.trans (slotOf_mod hfile)⟩
      · rintro ⟨hsame, -⟩ - c hc v hv
        rw [hf.contain_of_dropped hf' hnew hgone hsame hfound hc, hv]

/-- Four buckets, of which the first two are full of classes that have no other bucket. -/
def stuck : Filter := (new 8).addAll [4, 8, 12, 16, 5, 9, 13, 17]

theorem stuck_bounces : Bounces 4 stuck.table 0 1 (slotOf 0x10000 7) := by
  constructor <;> decide

theorem stuck_add : stuck.add (fun _ => 0) 0 0x10000 7 = (.ioError "failed to insert!",
    { stuck with table := Function.update stuck.table (0, 0) (slotOf 0x10000 7) }, 499) :=
  add_fails (stuck_bounces.addLoop_maxCuckoo 0)

/-- The `Add` of the class `0x10000` kicks 499 times and fails. With the draws `0, 1, 0, 0, …` it ends
with its own slot in hand, and every class is still found. -/
theorem failureKeeps_iff_stuck :
    (stuck.add oneDraw 0 0x10000 7).1 ≠ .ok ∧ stuck.FailureKeeps oneDraw 0 0x10000 7 := by
  have hreach : Reachable stuck := (Reachable.new 8 (by decide)).addAll _ (by decide)
  have hafter : Bounces 4 (exchanged stuck.table 1 (slotOf 0x10000 7)) 0 1 (slotOf 0x10000 7) := by
    constructor <;> decide
  have hadd : stuck.add oneDraw 0 0x10000 7 = (.ioError "failed to insert!",
      { stuck with table := exchanged stuck.table 1 (slotOf 0x10000 7) }, 499) :=
    add_fails (stuck_bounces.addLoop_oneDraw (by decide) (by decide) hafter)
  have hfail : (stuck.add oneDraw 0 0x10000 7).1 ≠ .ok := by
    rw [hadd]
    exact Status.noConfusion
  refine ⟨hfail, (failureKeeps_iff oneDraw hreach 0 (by decide) (by decide)).mpr (Or.inr ?_)⟩
  refine hreach.addEnds_of_absent oneDraw (by decide) (by decide) (by decide) hfail ?_
  rw [hadd]
  decide

/-- The class `0x10000` belongs to the two full buckets. Its `Add` goes back and forth between
them, kicks 499 times and fails with the class `4` in hand, which is lost. -/
theorem failed_add_drops_class :
    Reachable stuck ∧ stuck.contain 0x10000 = none ∧ stuck.contain 4 = some 4 ∧
      (stuck.add (fun _ => 0) 0 0x10000 7).1 = .ioError "failed to insert!" ∧
      (stuck.add (fun _ => 0) 0 0x10000 7).2.1.contain 4 = none ∧
      (stuck.add (fun _ => 0) 0 0x10000 7).2.1.contain 0x10000 = some 7 := by
  rw [stuck_add]
  exact ⟨(Reachable.new 8 (by decide)).addAll _ (by decide), by decide, by decide, rfl,
    by decide, by decide⟩

end Filter

end McfKv.Cuckoo
