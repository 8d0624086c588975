import McfKv.Index.Page

/-!
# Removal from a page (`multi-cuckoo-index/ff_btreee.h`)

`remove_key` first makes `switch_counter` odd, so that scans go from right to left. It then
gives the record of the key the pointer of its left neighbour, which hides the record, and
moves the records behind it one place to the left, one store at a time.

As for `insert_key`, the model keeps the stores: `removeStores` is the list of stores to
records in source order. `Gap p p' d e n` describes every page `p'` on the way from the
page `p` to the page without record `d`. The records in front of `d` are in place, those
between `d` and `e` have been moved, and the record at `e` is hidden because its pointer is
the one to its left.
-/

namespace McfKv.Btree.Page

/-- The pointer on the left of a record. -/
def prevPtr (p : Page) (i : ℕ) : Addr := if i = 0 then p.leftmostPtr else p.ptr (i - 1)

/-- The stores of the loop of `remove_key` from record `i` on, when `shift` is set. -/
def closeStores : ℕ → Page → ℕ → Option (List Store)
  | 0, _, _ => none
  | fuel + 1, p, i =>
    if p.ptr i = 0 then some []
    else
      let stores : List Store := [.key i (p.key (i + 1)), .ptr i (p.ptr (i + 1))]
      (closeStores fuel (p.writeAll stores) (i + 1)).map (stores ++ ·)

/-- The stores of the loop of `remove_key` from record `i` on, when `shift` is not set; the
inner `none` says that it never is. -/
def removeStores (k : ℕ) : ℕ → Page → ℕ → Option (Option (List Store))
  | 0, _, _ => none
  | fuel + 1, p, i =>
    if p.ptr i = 0 then some none
    else if p.key i = k then
      let stores : List Store :=
        [.ptr i (p.prevPtr i), .key i (p.key (i + 1)), .ptr i (p.ptr (i + 1))]
      (closeStores fuel (p.writeAll stores) (i + 1)).map fun rest => some (stores ++ rest)
    else removeStores k fuel p (i + 1)

/-- The first store of `remove_key`: the scans of the page go from right to left. -/
def turnedBack (p : Page) : Page :=
  if p.isForward then { p with switchCounter := (p.switchCounter + 1) % 256 } else p

/-- `Page::remove_key`. -/
def removeKey (p : Page) (k : ℕ) : Option (Page × Bool) :=
  (p.turnedBack.removeStores k cardinality 0).map fun found =>
    match found with
    | none => (p.turnedBack, false)
    | some stores => ({ p.turnedBack.writeAll stores with lastIndex := p.lastIndex - 1 }, true)

/-! ## The stores -/

/-- The stores that move `c` records, from record `i + 1` on, one place to the left. -/
def closing (p : Page) : ℕ → ℕ → List Store
  | 0, _ => []
  | c + 1, i => .key i (p.key (i + 1)) :: .ptr i (p.ptr (i + 1)) :: closing p c (i + 1)

section Stores

variable {p p' : Page} {n d k c i fuel : ℕ}

/-- The stores that close a gap read the records behind it, as they were at the start. -/
theorem closeStores_eq (hsame : ∀ j, i ≤ j → p'.key j = p.key j ∧ p'.ptr j = p.ptr j)
    (hfuel : c < fuel) (hne : ∀ j, i ≤ j → j < i + c → p.ptr j ≠ 0) (hend : p.ptr (i + c) = 0) :
    closeStores fuel p' i = some (p.closing c i) := by
  obtain ⟨fuel, rfl⟩ := Nat.exists_eq_succ_of_ne_zero (Nat.ne_zero_of_lt hfuel)
  induction c generalizing fuel p' i with
  | zero =>
    rw [closeStores, if_pos ((hsame i le_rfl).2.trans hend)]
    rfl
  | succ c ih =>
    obtain ⟨fuel, rfl⟩ := Nat.exists_eq_succ_of_ne_zero (show fuel ≠ 0 by omega)
    obtain ⟨hkey, hptr⟩ := hsame (i + 1) (Nat.le_succ i)
    have hrest : closeStores (fuel + 1)
        (p'.writeAll [.key i (p.key (i + 1)), .ptr i (p.ptr (i + 1))]) (i + 1) =
          some (p.closing c (i + 1)) := by
      refine ih (fun j hj => ?_) (fun j hj hlt => hne j (by omega) (by omega)) ?_ fuel (by omega)
      · obtain ⟨hk, hp⟩ := hsame j (by omega)
        exact ⟨(Function.update_of_ne (by omega) ..).trans hk,
          (Function.update_of_ne (by omega) ..).trans hp⟩
      · rwa [Nat.add_right_comm]
    rw [closeStores, if_neg ((hsame i le_rfl).2 ▸ hne i le_rfl (by omega)), hkey, hptr]
    exact congrArg (Option.map _) hrest

section

variable (h : p.Sound n)

include h

theorem removeStores_eq (hd : d < n) (hi : i ≤ d) (hfuel : n < i + fuel) :
    removeStores (p.key d) fuel p i =
      some (some (.ptr d (p.prevPtr d) :: p.closing (n - d) d)) := by
  induction fuel generalizing i with
  | zero => omega
  | succ fuel ih =>
    rw [removeStores, if_neg (h.ptr_ne i (by omega))]
    by_cases heq : p.key i = p.key d
    · obtain rfl := h.key_inj (by omega) hd heq
      have hrest : closeStores fuel
          (p.writeAll [.ptr i (p.prevPtr i), .key i (p.key (i + 1)), .ptr i (p.ptr (i + 1))])
            (i + 1) = some (p.closing (n - (i + 1)) (i + 1)) := by
        refine closeStores_eq (fun j hj => ?_) (by omega) (fun j hj hlt => h.ptr_ne j (by omega)) ?_
        · have hne : j ≠ i := by omega
          exact ⟨Function.update_of_ne hne ..,
            (Function.update_of_ne hne ..).trans (Function.update_of_ne hne ..)⟩
        · rw [show i + 1 + (n - (i + 1)) = n by omega]
          exact h.ptr_end
      rw [if_pos heq, show n - i = n - (i + 1) + 1 by omega]
      exact congrArg (Option.map _) hrest
    · rw [if_neg heq]
      have hne : i ≠ d := fun hid => heq (hid ▸ rfl)
      exact ih (by omega) (by omega)

theorem removeStores_absent (hk : ∀ i < n, p.key i ≠ k) (hi : i ≤ n) (hfuel : n < i + fuel) :
    removeStores k fuel p i = some none := by
  induction fuel generalizing i with
  | zero => omega
  | succ fuel ih =>
    rw [removeStores]
    rcases Nat.eq_or_lt_of_le hi with rfl | hi
    · rw [if_pos h.ptr_end]
    · rw [if_neg (h.ptr_ne i hi), if_neg (hk i hi)]
      exact ih hi (by omega)

end

end Stores

/-! ## The page between two stores -/

/-- The page `p'` is the page `p` without record `d`, but with a hidden record at `e`. -/
structure Gap (p p' : Page) (d e n : ℕ) : Prop where
  le : d ≤ e
  front : ∀ i < d, p'.key i = p.key i ∧ p'.ptr i = p.ptr i
  moved : ∀ i, d ≤ i → i < e → p'.key i = p.key (i + 1) ∧ p'.ptr i = p.ptr (i + 1)
  hidden : e < n → p'.ptr e = p'.prevPtr e
  behind : ∀ i, e < i → i ≤ n → p'.key i = p.key i ∧ p'.ptr i = p.ptr i
  last : p'.ptr n = p.ptr n
  header : p' = { p with key := p'.key, ptr := p'.ptr }

section Gap

variable {p p' : Page} {d e n : ℕ}

theorem gap_start (hd : d < n) : Gap p (p.write (.ptr d (p.prevPtr d))) d d n where
  le := le_rfl
  front i hi := ⟨rfl, Function.update_of_ne hi.ne ..⟩
  moved i hi hlt := absurd hi (not_le.mpr hlt)
  hidden _ := by
    have hself : (p.write (.ptr d (p.prevPtr d))).ptr d = p.prevPtr d := Function.update_self ..
    rw [hself]
    unfold prevPtr
    split_ifs with h0
    · rfl
    · exact (Function.update_of_ne (by omega) ..).symm
  behind i hi _ := ⟨rfl, Function.update_of_ne hi.ne' ..⟩
  last := Function.update_of_ne hd.ne' ..
  header := rfl

theorem Gap.writeKey (h : Gap p p' d e n) (x : ℕ) : Gap p (p'.write (.key e x)) d e n where
  le := h.le
  front i hi := by
    have hne : i ≠ e := (lt_of_lt_of_le hi h.le).ne
    exact ⟨(Function.update_of_ne hne ..).trans (h.front i hi).1, (h.front i hi).2⟩
  moved i hi hlt := ⟨(Function.update_of_ne hlt.ne ..).trans (h.moved i hi hlt).1,
    (h.moved i hi hlt).2⟩
  hidden := h.hidden
  behind i hi hn := ⟨(Function.update_of_ne hi.ne' ..).trans (h.behind i hi hn).1,
    (h.behind i hi hn).2⟩
  last := h.last
  header := by
    rw [h.header]
    rfl

theorem Gap.move (h : Gap p p' d e n) (he : e < n) :
    Gap p ((p'.write (.key e (p.key (e + 1)))).write (.ptr e (p.ptr (e + 1)))) d (e + 1) n where
  le := Nat.le_succ_of_le h.le
  front i hi := by
    have hne : i ≠ e := (lt_of_lt_of_le hi h.le).ne
    exact ⟨(Function.update_of_ne hne ..).trans (h.front i hi).1,
      (Function.update_of_ne hne ..).trans (h.front i hi).2⟩
  moved i hi hlt := by
    rcases Nat.eq_or_lt_of_le (Nat.lt_succ_iff.mp hlt) with rfl | hlt'
    · exact ⟨Function.update_self .., Function.update_self ..⟩
    · exact ⟨(Function.update_of_ne hlt'.ne ..).trans (h.moved i hi hlt').1,
        (Function.update_of_ne hlt'.ne ..).trans (h.moved i hi hlt').2⟩
  hidden hlt := by
    -- the record that has just been moved is there twice
    have hnext : Function.update p'.ptr e (p.ptr (e + 1)) (e + 1) = p.ptr (e + 1) :=
      (Function.update_of_ne (by omega) ..).trans (h.behind (e + 1) (by omega) (by omega)).2
    have hself : Function.update p'.ptr e (p.ptr (e + 1)) e = p.ptr (e + 1) :=
      Function.update_self ..
    unfold prevPtr
    rw [if_neg (Nat.succ_ne_zero e)]
    exact hnext.trans hself.symm
  behind i hi hn := by
    have hne : i ≠ e := by omega
    exact ⟨(Function.update_of_ne hne ..).trans (h.behind i (by omega) hn).1,
      (Function.update_of_ne hne ..).trans (h.behind i (by omega) hn).2⟩
  last := (Function.update_of_ne he.ne' ..).trans h.last
  header := by
    rw [h.header]
    rfl

/-- **After any number of stores** there is a gap, by induction on the records that are left. -/
theorem Gap.take (c : ℕ) : ∀ e (p' : Page), e + c = n → Gap p p' d e n → ∀ j,
    ∃ e', Gap p (p'.writeAll ((p.closing c e).take j)) d e' n := by
  induction c with
  | zero => exact fun e p' _ h j => ⟨e, by simpa [closing, writeAll] using h⟩
  | succ c ih =>
    intro e p' hn h j
    rcases j with _ | _ | j
    · exact ⟨e, h⟩
    · exact ⟨e, h.writeKey _⟩
    · exact ih (e + 1) _ (by omega) (h.move (by omega)) j

theorem Gap.close (c : ℕ) : ∀ e (p' : Page), e + c = n → Gap p p' d e n →
    Gap p (p'.writeAll (p.closing c e)) d n n := by
  induction c with
  | zero =>
    rintro e p' rfl h
    exact h
  | succ c ih => exact fun e p' hn h => ih (e + 1) _ (by omega) (h.move (by omega))

section

variable (h : Gap p p' d e n) (hsound : p.Sound n)

include h hsound

theorem Gap.of_valid (hleaf : p.leftmostPtr = 0) {i : ℕ} (hi : i < n) (hvalid : p'.Valid i) :
    ∃ j < n, j ≠ d ∧ p'.key i = p.key j ∧ p'.ptr i = p.ptr j := by
  rcases Nat.lt_or_ge i d with hid | hid
  · exact ⟨i, hi, hid.ne, h.front i hid⟩
  rcases Nat.lt_trichotomy i e with hlt | rfl | hgt
  · have hmoved := h.moved i hid hlt
    refine ⟨i + 1, lt_of_le_of_ne hi fun heq => hvalid.1 ?_, by omega, hmoved⟩
    rw [hmoved.2, heq]
    exact hsound.ptr_end
  · have hhidden := h.hidden hi
    unfold prevPtr at hhidden
    split_ifs at hhidden with h0
    · rw [h.header] at hhidden
      exact absurd (hhidden.trans hleaf) hvalid.1
    · exact absurd hhidden.symm (hvalid.2.resolve_left h0)
  · exact ⟨i, hi, (lt_of_le_of_lt h.le hgt).ne', h.behind i hgt hi.le⟩

theorem Gap.valid (hleaf : p.leftmostPtr = 0)
    (hdistinct : ∀ i < n, ∀ j < n, p.ptr i = p.ptr j → i = j) {j : ℕ} (hj : j < n) (hjd : j ≠ d) :
    ∃ i < n, p'.Valid i ∧ p'.key i = p.key j ∧ p'.ptr i = p.ptr j := by
  have hne : ∀ i < n, i ≠ j → p.ptr i ≠ p.ptr j := fun i hi hij heq => hij (hdistinct i hi j hj heq)
  have hle := h.le
  rcases Nat.lt_or_gt_of_ne hjd with hlt | hgt
  · have hfront := h.front j hlt
    refine ⟨j, hj, ⟨by rw [hfront.2]; exact hsound.ptr_ne j hj, ?_⟩, hfront⟩
    rcases Nat.eq_zero_or_pos j with h0 | hpos
    · exact Or.inl h0
    · rw [hfront.2, (h.front (j - 1) (by omega)).2]
      exact Or.inr (hne (j - 1) (by omega) (by omega))
  rcases Nat.lt_or_ge e j with hej | hje
  · have hbehind := h.behind j hej hj.le
    refine ⟨j, hj, ⟨by rw [hbehind.2]; exact hsound.ptr_ne j hj, Or.inr ?_⟩, hbehind⟩
    rw [hbehind.2]
    rcases Nat.eq_or_lt_of_le (Nat.le_sub_one_of_lt hej) with heq | hlt
    · -- the hidden record repeats a pointer further left, or null
      rw [← heq, h.hidden (by omega)]
      unfold prevPtr
      split_ifs with h0
      · rw [h.header]
        exact fun hc => hsound.ptr_ne j hj (hc.symm.trans hleaf)
      · rcases Nat.lt_or_ge (e - 1) d with hlt' | hge
        · rw [(h.front (e - 1) hlt').2]
          exact hne (e - 1) (by omega) (by omega)
        · rw [(h.moved (e - 1) hge (by omega)).2, Nat.sub_add_cancel (by omega)]
          exact hne e (by omega) (by omega)
    · rw [(h.behind (j - 1) hlt (by omega)).2]
      exact hne (j - 1) (by omega) (by omega)
  · have hmoved := h.moved (j - 1) (by omega) (by omega)
    rw [Nat.sub_add_cancel (by omega)] at hmoved
    refine ⟨j - 1, by omega, ⟨by rw [hmoved.2]; exact hsound.ptr_ne j hj, ?_⟩, hmoved⟩
    rcases Nat.eq_zero_or_pos (j - 1) with h0 | hpos
    · exact Or.inl h0
    · rw [hmoved.2]
      rcases Nat.lt_or_ge (j - 1 - 1) d with hlt' | hge
      · rw [(h.front (j - 1 - 1) hlt').2]
        exact Or.inr (hne (j - 1 - 1) (by omega) (by omega))
      · rw [(h.moved (j - 1 - 1) hge (by omega)).2, Nat.sub_add_cancel (by omega)]
        exact Or.inr (hne (j - 1) (by omega) (by omega))

theorem Gap.leafRet (hback : p.isForward = false) (x : ℕ) :
    ∃ r, p'.leafRet x = some r ∧ p'.Finds x (· < n) r := by
  have hlast : p'.lastIndex = (n : ℤ) - 1 := by
    rw [h.header]
    exact hsound.last
  have hback' : p'.isForward = false := by
    rw [h.header]
    exact hback
  have hcount : p'.count = some n := by
    unfold count
    have hstart : p'.lastIndex + 1 = n := by rw [hlast]; omega
    simp only [hstart, Int.toNat_natCast, hback']
    rw [if_neg (by omega), if_neg (by simp)]
    exact countDown_end (h.last.trans hsound.ptr_end)
  unfold Page.leafRet
  rw [hback', hcount]
  refine ⟨_, rfl, (leafScanBack_finds p' x (n - 1)).mono (fun i hi hvalid => ?_)
    fun i hi _ => Nat.le_sub_one_of_lt hi⟩
  rcases Nat.eq_zero_or_pos n with rfl | hpos
  · obtain rfl := Nat.le_zero.mp hi
    exact absurd (h.last.trans hsound.ptr_end) hvalid.1
  · omega

end

end Gap

/-! ## What a completed removal does -/

theorem turnedBack_isForward (p : Page) : p.turnedBack.isForward = false := by
  unfold turnedBack
  split_ifs with h
  · simp only [isForward, decide_eq_true_eq, decide_eq_false_iff_not] at h ⊢
    omega
  · simpa using h

theorem turnedBack_eq (p : Page) :
    p.turnedBack = { p with switchCounter := p.turnedBack.switchCounter } := by
  unfold turnedBack
  split_ifs <;> rfl

section Removed

variable {p : Page} {n k d : ℕ}

theorem Sound.turnedBack (h : p.Sound n) : p.turnedBack.Sound n := by
  rw [turnedBack_eq]
  exact ⟨h.le, h.ptr_ne, h.ptr_end, h.sorted, h.last⟩

theorem Gap.sound {p' : Page} (h : Gap p p' d n n) (hsound : p.Sound n) (hd : d < n) :
    Sound { p' with lastIndex := p.lastIndex - 1 } (n - 1) where
  le := (Nat.sub_le n 1).trans hsound.le
  ptr_ne i hi := by
    rcases Nat.lt_or_ge i d with hlt | hge
    · exact (h.front i hlt).2 ▸ hsound.ptr_ne i (by omega)
    · exact (h.moved i hge (by omega)).2 ▸ hsound.ptr_ne (i + 1) (by omega)
  ptr_end := by
    have hmoved := (h.moved (n - 1) (by omega) (by omega)).2
    rw [Nat.sub_add_cancel (by omega), hsound.ptr_end] at hmoved
    exact hmoved
  sorted i j hij hj := by
    change p'.key i < p'.key j
    rcases Nat.lt_or_ge j d with hjd | hjd
    · rw [(h.front i (by omega)).1, (h.front j hjd).1]
      exact hsound.sorted i j hij (by omega)
    · rw [(h.moved j hjd (by omega)).1]
      rcases Nat.lt_or_ge i d with hid | hid
      · rw [(h.front i hid).1]
        exact hsound.sorted i (j + 1) (by omega) (by omega)
      · rw [(h.moved i hid (by omega)).1]
        exact hsound.sorted (i + 1) (j + 1) (by omega) (by omega)
  last := by
    change p.lastIndex - 1 = _
    rw [hsound.last]
    omega

theorem Gap.has {p' : Page} (h : Gap p p' d n n) (hsound : p.Sound n) (hd : d < n) (x : ℕ)
    (y : Addr) : p'.Has (n - 1) x y ↔ x ≠ p.key d ∧ p.Has n x y := by
  constructor
  · rintro ⟨i, hi, rfl, rfl⟩
    rcases Nat.lt_or_ge i d with hid | hid
    · have hfront := h.front i hid
      rw [hfront.1, hfront.2]
      exact ⟨(hsound.sorted i d hid hd).ne, i, by omega, rfl, rfl⟩
    · have hmoved := h.moved i hid (by omega)
      rw [hmoved.1, hmoved.2]
      exact ⟨(hsound.sorted d (i + 1) (by omega) (by omega)).ne', i + 1, by omega, rfl, rfl⟩
  · rintro ⟨hne, i, hi, rfl, rfl⟩
    have hid : i ≠ d := fun heq => hne (heq ▸ rfl)
    rcases Nat.lt_or_gt_of_ne hid with hlt | hgt
    · exact ⟨i, by omega, h.front i hlt⟩
    · have hmoved := h.moved (i - 1) (by omega) (by omega)
      rw [Nat.sub_add_cancel (by omega)] at hmoved
      exact ⟨i - 1, by omega, hmoved⟩

theorem removeStores_turnedBack (h : p.Sound n) (hd : d < n) :
    p.turnedBack.removeStores (p.key d) cardinality 0 =
      some (some (.ptr d (p.turnedBack.prevPtr d) :: p.turnedBack.closing (n - d) d)) := by
  have hcard : n ≤ cardinality - 1 := h.le
  rw [show p.key = p.turnedBack.key by rw [turnedBack_eq]]
  exact removeStores_eq h.turnedBack hd (Nat.zero_le d) (by omega)

/-- **The removal of a key that the page holds.** -/
theorem removeKey_has (h : p.Sound n) (hd : d < n) :
    ∃ p', p.removeKey (p.key d) = some (p', true) ∧ p'.Sound (n - 1) ∧ p'.ptr n = 0 ∧
      p'.leftmostPtr = p.leftmostPtr ∧ p'.siblingPtr = p.siblingPtr ∧ p'.level = p.level ∧
      ∀ x y, p'.Has (n - 1) x y ↔ x ≠ p.key d ∧ p.Has n x y := by
  have hkey : p.turnedBack.key = p.key := by rw [turnedBack_eq]
  have hgap := (gap_start hd).close (n - d) d _ (by omega) (p := p.turnedBack)
  refine ⟨_, ?_, hgap.sound h.turnedBack hd, hgap.last.trans h.turnedBack.ptr_end, ?_, ?_, ?_,
    fun x y => ?_⟩
  · rw [removeKey, removeStores_turnedBack h hd, Option.map_some]
    rw [turnedBack_eq]
    rfl
  · rw [hgap.header, turnedBack_eq]
  · rw [hgap.header, turnedBack_eq]
  · rw [hgap.header, turnedBack_eq]
  · rw [← hkey]
    exact (hgap.has h.turnedBack hd x y).trans (by rw [turnedBack_eq]; rfl)

theorem removeKey_absent (h : p.Sound n) (hk : ∀ i < n, p.key i ≠ k) :
    p.removeKey k = some (p.turnedBack, false) := by
  have hcard : n < cardinality := lt_of_le_of_lt h.le (by decide)
  have hstores : p.turnedBack.removeStores k cardinality 0 = some none :=
    removeStores_absent h.turnedBack (by rwa [turnedBack_eq]) (Nat.zero_le n) (by omega)
  rw [removeKey, hstores]
  rfl

/-- **A completed removal**, whether the page holds the key or not. -/
theorem removeKey_spec (h : p.Sound n) (hstale : n = 0 → p.ptr 1 = 0) (k : ℕ) :
    ∃ p' found n', p.removeKey k = some (p', found) ∧ p'.Sound n' ∧ (n' = 0 → p'.ptr 1 = 0) ∧
      (p'.leftmostPtr = p.leftmostPtr ∧ p'.siblingPtr = p.siblingPtr ∧ p'.level = p.level) ∧
      (∀ x y, p'.Has n' x y ↔ x ≠ k ∧ p.Has n x y) ∧ ((found = true ∧ n = n' + 1) ∨
        (found = false ∧ n' = n ∧ p' = p.turnedBack ∧ ∀ i < n, p.key i ≠ k)) := by
  by_cases hk : ∀ i < n, p.key i ≠ k
  · refine ⟨p.turnedBack, false, n, removeKey_absent h hk, h.turnedBack, ?_, ?_, fun x y => ?_,
      Or.inr ⟨rfl, rfl, rfl, hk⟩⟩
    · rwa [turnedBack_eq]
    · rw [turnedBack_eq]
      exact ⟨rfl, rfl, rfl⟩
    · rw [turnedBack_eq]
      refine ⟨fun hx => ⟨?_, hx⟩, And.right⟩
      obtain ⟨i, hi, rfl, -⟩ := hx
      exact hk i hi
  · push Not at hk
    obtain ⟨d, hd, rfl⟩ := hk
    obtain ⟨p', heq, hsound, hend, hleftmost, hsibling, hlevel, hhas⟩ := removeKey_has h hd
    refine ⟨p', true, n - 1, heq, hsound, fun h0 => ?_, ⟨hleftmost, hsibling, hlevel⟩, hhas,
      Or.inl ⟨rfl, by omega⟩⟩
    rwa [show 1 = n by omega]

/-! ## Searches between two stores -/

/-- The page after the counter has become odd and the first `j` stores of the removal of `k`
have been made. -/
def removeFrozen (p : Page) (k j : ℕ) : Option Page :=
  (p.turnedBack.removeStores k cardinality 0).map fun found =>
    p.turnedBack.writeAll ((found.getD []).take j)

theorem removeFrozen_cases (h : p.Sound n) (hd : d < n) (j : ℕ) :
    ∃ p', p.removeFrozen (p.key d) j = some p' ∧
      (p' = p.turnedBack ∨ ∃ e, Gap p.turnedBack p' d e n) := by
  refine ⟨_, by rw [removeFrozen, removeStores_turnedBack h hd, Option.map_some], ?_⟩
  cases j with
  | zero => exact Or.inl rfl
  | succ j => exact Or.inr ((gap_start hd).take (n - d) d _ (by omega) j)

section

variable {p' : Page} {e : ℕ} (h : Gap p p' d e n) (hsound : p.Sound n) (hleaf : p.leftmostPtr = 0)
  (hback : p.isForward = false) (firstKey : Addr → Option ℕ)

include h hsound hleaf hback

theorem Gap.search_other (hdistinct : ∀ i < n, ∀ j < n, p.ptr i = p.ptr j → i = j) {i : ℕ}
    (hi : i < n) (hid : i ≠ d) : p'.linearSearch firstKey (p.key i) = some (p.ptr i) := by
  have hleaf' : p'.leftmostPtr = 0 := by
    rw [h.header]
    exact hleaf
  obtain ⟨i', hi', hvalid, hkey, -⟩ := h.valid hsound hleaf hdistinct hi hid
  obtain ⟨r, heq, ⟨m, hm, hvalid', hkey', rfl⟩ | ⟨-, hnone⟩⟩ := h.leafRet hsound hback (p.key i)
  · obtain ⟨j, hj, -, hj', hptr⟩ := h.of_valid hsound hleaf hm hvalid'
    obtain rfl : j = i := hsound.key_inj hj hi (hj'.symm.trans hkey')
    rw [hptr] at heq
    rw [linearSearch, if_pos hleaf', heq, Option.bind_some, if_pos (hsound.ptr_ne j hj)]
  · exact absurd hkey (hnone i' hi' hvalid)

theorem Gap.search_self (hd : d < n) :
    p'.linearSearch firstKey (p.key d) = p.orSibling firstKey (p.key d) 0 := by
  have hleaf' : p'.leftmostPtr = 0 := by
    rw [h.header]
    exact hleaf
  obtain ⟨r, heq, ⟨m, hm, hvalid', hkey', -⟩ | ⟨rfl, -⟩⟩ := h.leafRet hsound hback (p.key d)
  · obtain ⟨j, hj, hjd, hj', -⟩ := h.of_valid hsound hleaf hm hvalid'
    exact absurd (hsound.key_inj hj hd (hj'.symm.trans hkey')) hjd
  · rw [linearSearch, if_pos hleaf', heq, Option.bind_some, if_neg (by simp), h.header]
    rfl

end

/-- **A removal is readable at every store.** On a leaf in order with pairwise distinct
pointers, after any number of stores of the removal of a key, a search finds the pointer of
every other key; and for the key itself its pointer or null, when no sibling claims it. -/
theorem search_removeFrozen (firstKey : Addr → Option ℕ) (h : p.Sound n)
    (hleaf : p.leftmostPtr = 0) (hdistinct : ∀ i < n, ∀ j < n, p.ptr i = p.ptr j → i = j)
    (hd : d < n) (j : ℕ) :
    ∃ p', p.removeFrozen (p.key d) j = some p' ∧
      (∀ i < n, i ≠ d → p'.linearSearch firstKey (p.key i) = some (p.ptr i)) ∧
      ((p.siblingPtr = 0 ∨ ∃ first, firstKey p.siblingPtr = some first ∧ p.key d < first) →
        p'.linearSearch firstKey (p.key d) = some (p.ptr d) ∨
          p'.linearSearch firstKey (p.key d) = some 0) := by
  have hkey : p.turnedBack.key = p.key := by rw [turnedBack_eq]
  have hptr : p.turnedBack.ptr = p.ptr := by rw [turnedBack_eq]
  have hsibling : p.turnedBack.siblingPtr = p.siblingPtr := by rw [turnedBack_eq]
  have hleaf' : p.turnedBack.leftmostPtr = 0 := by rwa [turnedBack_eq]
  have hdistinct' : ∀ i < n, ∀ j < n, p.turnedBack.ptr i = p.turnedBack.ptr j → i = j := by
    rwa [hptr]
  obtain ⟨p', heq, hcases⟩ := removeFrozen_cases h hd j
  refine ⟨p', heq, ?_⟩
  rw [← hkey, ← hptr, ← hsibling]
  rcases hcases with rfl | ⟨e, hgap⟩
  · -- nothing has been removed yet
    have hadj : p.turnedBack.Adjacent n := fun i hi heq =>
      absurd (hdistinct' i (by omega) (i + 1) hi heq) (by omega)
    have hfound : ∀ i < n, p.turnedBack.linearSearch firstKey (p.turnedBack.key i) =
        some (p.turnedBack.ptr i) := fun i hi =>
      search_leaf_has h.turnedBack hleaf' hadj ⟨i, hi, rfl, rfl⟩
    exact ⟨fun i hi _ => hfound i hi, fun _ => Or.inl (hfound d hd)⟩
  · refine ⟨fun i hi hid => hgap.search_other h.turnedBack hleaf' p.turnedBack_isForward
      firstKey hdistinct' hi hid, fun hclaim => Or.inr ?_⟩
    rw [hgap.search_self h.turnedBack hleaf' p.turnedBack_isForward firstKey hd, orSibling]
    rcases hclaim with h0 | ⟨first, hfirst, hlt⟩
    · rw [if_pos h0]
    · split_ifs
      · rfl
      · rw [hfirst, Option.map_some, if_neg (not_le.mpr hlt)]

end Removed

/-- A leaf with the entries `(5, 70)` and `(8, 90)` and a sibling at address `3`. -/
def twoEntries : Page :=
  { new 0 with
    siblingPtr := 3
    lastIndex := 1
    key := fun i => if i = 0 then 5 else 8
    ptr := fun i => if i = 0 then 70 else if i = 1 then 90 else 0 }

theorem twoEntries_sound : twoEntries.Sound 2 where
  le := by decide
  ptr_ne := by decide
  ptr_end := rfl
  sorted i j hij hj := by
    obtain ⟨rfl, rfl⟩ : i = 0 ∧ j = 1 := by omega
    decide
  last := rfl

theorem twoEntries_ptr_inj : ∀ i < 2, ∀ j < 2, twoEntries.ptr i = twoEntries.ptr j → i = j := by
  decide

/-- The sibling starts behind the page, as in a tree in order. -/
theorem search_removeFrozen_twoEntries :
    twoEntries.Sound 2 ∧ ∃ p', twoEntries.removeFrozen 5 2 = some p' ∧
      p'.linearSearch (fun _ => some 9) 8 = some 90 ∧
      (p'.linearSearch (fun _ => some 9) 5 = some 70 ∨
        p'.linearSearch (fun _ => some 9) 5 = some 0) := by
  obtain ⟨p', heq, hother, hself⟩ := search_removeFrozen (d := 0) (fun _ => some 9)
    twoEntries_sound rfl twoEntries_ptr_inj (by decide) 2
  exact ⟨twoEntries_sound, p', heq, hother 1 (by decide) (by decide),
    hself (Or.inr ⟨9, rfl, by decide⟩)⟩

/-- A sibling that starts in front of the key claims it as soon as its record is hidden: the
search returns the address of the sibling. -/
theorem sibling_claims_removed_key :
    twoEntries.Sound 2 ∧ twoEntries.leftmostPtr = 0 ∧
      (∀ i < 2, ∀ j < 2, twoEntries.ptr i = twoEntries.ptr j → i = j) ∧
      twoEntries.key 0 = 5 ∧ twoEntries.ptr 0 = 70 ∧
      ∃ p', twoEntries.removeFrozen 5 1 = some p' ∧
        p'.linearSearch (fun _ => some 4) 5 = some 3 :=
  ⟨twoEntries_sound, rfl, twoEntries_ptr_inj, rfl, rfl, _, rfl, rfl⟩

end McfKv.Btree.Page
