import Mathlib.Data.List.Sort
import Mathlib.Order.Basic

/-!
# Lists of versions

A store keeps several versions of a key, told apart by a sequence number. Its lists of
versions are ordered by ascending keys, and the versions of one key from the newest to the
oldest (`Le`). A reader at sequence number `S` sees the newest version of a key at or below
`S` (`Sees`).

The versions are elements of any type with a key and a sequence number.
-/

namespace McfKv.Versions

variable {α K : Type*} [LinearOrder K] {key : α → K} {seq : α → ℕ}

/-- Ascending keys, and descending sequence numbers of one key. -/
def Le (key : α → K) (seq : α → ℕ) (a b : α) : Prop :=
  key a < key b ∨ (key a = key b ∧ seq b ≤ seq a)

instance : DecidableRel (Le key seq) := fun a b =>
  inferInstanceAs (Decidable (key a < key b ∨ (key a = key b ∧ seq b ≤ seq a)))

instance : IsTrans α (Le key seq) where
  trans a b c hab hbc := by
    rcases hab with hab | ⟨hab, hseq⟩ <;> rcases hbc with hbc | ⟨hbc, hseq'⟩
    · exact Or.inl (hab.trans hbc)
    · exact Or.inl (hbc ▸ hab)
    · exact Or.inl (hab ▸ hbc)
    · exact Or.inr ⟨hab.trans hbc, hseq'.trans hseq⟩

instance : Std.Total (Le key seq) where
  total a b := by
    rcases lt_trichotomy (key a) (key b) with hlt | heq | hgt
    · exact Or.inl (Or.inl hlt)
    · rcases Nat.le_total (seq b) (seq a) with hle | hle
      · exact Or.inl (Or.inr ⟨heq, hle⟩)
      · exact Or.inr (Or.inr ⟨heq.symm, hle⟩)
    · exact Or.inr (Or.inl hgt)

theorem Le.seq_le {a b : α} (h : Le key seq a b) (hkey : key a = key b) : seq b ≤ seq a :=
  (h.resolve_left (by rw [hkey]; exact lt_irrefl _)).2

theorem Le.key_le {a b : α} (h : Le key seq a b) : key a ≤ key b := by
  rcases h with hlt | ⟨heq, -⟩
  · exact hlt.le
  · exact heq.le

/-! ## Reading at a sequence number -/

/-- What a reader at `S` sees of the key `k`. -/
structure Sees (key : α → K) (seq : α → ℕ) (L : List α) (k : K) (S : ℕ) (a : α) : Prop where
  mem : a ∈ L
  key_eq : key a = k
  le : seq a ≤ S
  newest : ∀ b ∈ L, key b = k → seq b ≤ S → seq b ≤ seq a

/-- The first version at or behind `(k, S)`, if it is a version of `k`. -/
def find (key : α → K) (seq : α → ℕ) (L : List α) (k : K) (S : ℕ) : Option α :=
  (L.find? fun a => k < key a ∨ (key a = k ∧ seq a ≤ S)).filter fun a => key a = k

variable {L : List α} {k : K} {S : ℕ} {a : α}

theorem find_cons (x : α) (L : List α) : find key seq (x :: L) k S =
    if k < key x ∨ (key x = k ∧ seq x ≤ S) then (if key x = k then some x else none)
    else find key seq L k S := by
  unfold find
  rw [List.find?_cons]
  by_cases hx : k < key x ∨ (key x = k ∧ seq x ≤ S)
  · simp [hx, Option.filter]
  · simp [hx]

theorem find_sees (hsorted : L.Pairwise (Le key seq)) (h : find key seq L k S = some a) :
    Sees key seq L k S a := by
  induction L with
  | nil => simp [find] at h
  | cons x L ih =>
    rw [List.pairwise_cons] at hsorted
    rw [find_cons] at h
    split_ifs at h with hx hk
    · obtain rfl := Option.some.inj h
      have hle : seq x ≤ S := by
        rcases hx with hlt | ⟨-, hle⟩
        · exact absurd hk hlt.ne'
        · exact hle
      refine ⟨List.mem_cons_self, hk, hle, fun b hb hbk _ => ?_⟩
      rcases List.mem_cons.mp hb with rfl | hb
      · exact le_rfl
      · exact (hsorted.1 b hb).seq_le (hk.trans hbk.symm)
    · obtain ⟨hmem, hkey, hle, hnewest⟩ := ih hsorted.2 h
      refine ⟨List.mem_cons_of_mem _ hmem, hkey, hle, fun b hb hbk hbS => ?_⟩
      rcases List.mem_cons.mp hb with rfl | hb
      · exact absurd (Or.inr ⟨hbk, hbS⟩) hx
      · exact hnewest b hb hbk hbS

theorem find_eq_none_iff (hsorted : L.Pairwise (Le key seq)) :
    find key seq L k S = none ↔ ∀ b ∈ L, key b = k → S < seq b := by
  induction L with
  | nil => simp [find]
  | cons x L ih =>
    rw [List.pairwise_cons] at hsorted
    rw [find_cons]
    split_ifs with hx hk
    · -- the first version is one that the reader sees
      have hle : seq x ≤ S := by
        rcases hx with hlt | ⟨-, hle⟩
        · exact absurd hk hlt.ne'
        · exact hle
      refine iff_of_false (by simp) fun hall => ?_
      exact absurd (hall x List.mem_cons_self hk) (not_lt.mpr hle)
    · -- all keys are behind `k`
      refine iff_of_true rfl fun b hb hbk => ?_
      have hlt : k < key x := hx.resolve_right fun h => hk h.1
      rcases List.mem_cons.mp hb with rfl | hb
      · exact absurd hbk hk
      · exact absurd (hlt.trans_le (hsorted.1 b hb).key_le) (by rw [hbk]; exact lt_irrefl k)
    · rw [ih hsorted.2]
      refine ⟨fun hall b hb hbk => ?_, fun hall b hb => hall b (List.mem_cons_of_mem _ hb)⟩
      rcases List.mem_cons.mp hb with rfl | hb
      · exact not_le.mp fun hle => hx (Or.inr ⟨hbk, hle⟩)
      · exact hall b hb hbk

/-- **The search finds what the reader sees**, where a version is told by its number. -/
theorem find_eq_some_iff (hsorted : L.Pairwise (Le key seq))
    (hinj : ∀ x ∈ L, ∀ y ∈ L, seq x = seq y → x = y) :
    find key seq L k S = some a ↔ Sees key seq L k S a := by
  refine ⟨find_sees hsorted, fun h => ?_⟩
  cases hfind : find key seq L k S with
  | none => exact absurd ((find_eq_none_iff hsorted).mp hfind a h.mem h.key_eq) (not_lt.mpr h.le)
  | some b =>
    have hb := find_sees hsorted hfind
    have heq : seq b = seq a :=
      (h.newest b hb.mem hb.key_eq hb.le).antisymm (hb.newest a h.mem h.key_eq h.le)
    rw [hinj b hb.mem a h.mem heq]

omit [LinearOrder K] in
/-- Lists that agree on the versions that a reader may see show it the same one. -/
theorem sees_congr {L' : List α} (h : ∀ b, key b = k → seq b ≤ S → (b ∈ L ↔ b ∈ L')) :
    Sees key seq L k S a ↔ Sees key seq L' k S a := by
  constructor
  · rintro ⟨hmem, hkey, hle, hnewest⟩
    exact ⟨(h a hkey hle).mp hmem, hkey, hle,
      fun b hb hbk hbS => hnewest b ((h b hbk hbS).mpr hb) hbk hbS⟩
  · rintro ⟨hmem, hkey, hle, hnewest⟩
    exact ⟨(h a hkey hle).mpr hmem, hkey, hle,
      fun b hb hbk hbS => hnewest b ((h b hbk hbS).mp hb) hbk hbS⟩

/-- **Searches agree** where readers see the same versions. -/
theorem find_congr {L' : List α} (hsorted : L.Pairwise (Le key seq))
    (hsorted' : L'.Pairwise (Le key seq)) (hinj : ∀ x ∈ L, ∀ y ∈ L, seq x = seq y → x = y)
    (hinj' : ∀ x ∈ L', ∀ y ∈ L', seq x = seq y → x = y)
    (h : ∀ b, Sees key seq L k S b ↔ Sees key seq L' k S b) :
    find key seq L k S = find key seq L' k S := by
  ext b
  rw [find_eq_some_iff hsorted hinj, find_eq_some_iff hsorted' hinj', h b]

theorem find_congr_seq {S' : ℕ} (h : ∀ b ∈ L, key b = k → (seq b ≤ S ↔ seq b ≤ S')) :
    find key seq L k S = find key seq L k S' := by
  induction L with
  | nil => rfl
  | cons x L ih =>
    have hx : (k < key x ∨ (key x = k ∧ seq x ≤ S)) ↔ (k < key x ∨ (key x = k ∧ seq x ≤ S')) :=
      or_congr_right (and_congr_right fun hk => h x List.mem_cons_self hk)
    rw [find_cons, find_cons, ih fun b hb => h b (List.mem_cons_of_mem _ hb)]
    simp only [hx]

/-! ## The first version of each key -/

/-- The first version of each key; `prev` is the key of the last one that was taken. -/
def firsts (key : α → K) : Option K → List α → List α
  | _, [] => []
  | prev, a :: L =>
    if prev = some (key a) then firsts key prev L else a :: firsts key (some (key a)) L

theorem firsts_sublist (prev : Option K) (L : List α) : (firsts key prev L).Sublist L := by
  induction L generalizing prev with
  | nil => exact List.Sublist.refl _
  | cons x L ih =>
    unfold firsts
    split_ifs
    · exact (ih prev).cons x
    · exact (ih _).cons_cons x

theorem exists_mem_firsts (prev : Option K) (hk : ∃ b ∈ L, key b = k) (hprev : prev ≠ some k) :
    ∃ b ∈ firsts key prev L, key b = k := by
  induction L generalizing prev with
  | nil =>
    obtain ⟨b, hb, -⟩ := hk
    exact absurd hb List.not_mem_nil
  | cons x L ih =>
    unfold firsts
    by_cases hx : key x = k
    · rw [if_neg (by rw [hx]; exact hprev)]
      exact ⟨x, List.mem_cons_self, hx⟩
    · have hk' : ∃ b ∈ L, key b = k := by
        obtain ⟨b, hb, hbk⟩ := hk
        rcases List.mem_cons.mp hb with rfl | hb
        · exact absurd hbk hx
        · exact ⟨b, hb, hbk⟩
      split_ifs
      · exact ih prev hk' hprev
      · obtain ⟨b, hb, hbk⟩ := ih (some (key x)) hk' fun heq => hx (Option.some.inj heq)
        exact ⟨b, List.mem_cons_of_mem _ hb, hbk⟩

theorem newest_of_mem_firsts_aux (prev : Option K) (hsorted : L.Pairwise (Le key seq))
    (hprev : ∀ p, prev = some p → ∀ b ∈ L, p ≤ key b) (ha : a ∈ firsts key prev L) :
    prev ≠ some (key a) ∧ ∀ b ∈ L, key b = key a → seq b ≤ seq a := by
  induction L generalizing prev with
  | nil => exact absurd ha List.not_mem_nil
  | cons x L ih =>
    rw [List.pairwise_cons] at hsorted
    unfold firsts at ha
    split_ifs at ha with hx
    · obtain ⟨hne, hnewest⟩ := ih prev hsorted.2
        (fun p hp b hb => hprev p hp b (List.mem_cons_of_mem _ hb)) ha
      refine ⟨hne, fun b hb hbk => ?_⟩
      rcases List.mem_cons.mp hb with rfl | hb
      · exact absurd (hbk ▸ hx) hne
      · exact hnewest b hb hbk
    · rcases List.mem_cons.mp ha with rfl | ha
      · refine ⟨hx, fun b hb hbk => ?_⟩
        rcases List.mem_cons.mp hb with rfl | hb
        · exact le_rfl
        · exact (hsorted.1 b hb).seq_le hbk.symm
      · obtain ⟨hne, hnewest⟩ := ih (some (key x)) hsorted.2
          (fun p hp b hb => Option.some.inj hp ▸ (hsorted.1 b hb).key_le) ha
        have hxa : key x ≠ key a := fun heq => hne (by rw [heq])
        refine ⟨fun hp => hxa ?_, fun b hb hbk => ?_⟩
        · -- the key before is at most that of `x`, which is at most that of `a`
          refine ((hsorted.1 a ((firsts_sublist _ _).subset ha)).key_le).antisymm ?_
          exact hprev _ hp x List.mem_cons_self
        · rcases List.mem_cons.mp hb with rfl | hb
          · exact absurd hbk hxa
          · exact hnewest b hb hbk

/-- **The first version of a key is its newest one.** -/
theorem newest_of_mem_firsts (hsorted : L.Pairwise (Le key seq)) (ha : a ∈ firsts key none L) :
    ∀ b ∈ L, key b = key a → seq b ≤ seq a :=
  (newest_of_mem_firsts_aux none hsorted (fun p hp => absurd hp (by simp)) ha).2

theorem firsts_pairwise_lt (prev : Option K) (hsorted : L.Pairwise (Le key seq)) :
    (firsts key prev L).Pairwise fun a b => key a < key b := by
  induction L generalizing prev with
  | nil => exact List.Pairwise.nil
  | cons x L ih =>
    rw [List.pairwise_cons] at hsorted
    unfold firsts
    split_ifs
    · exact ih prev hsorted.2
    · refine List.pairwise_cons.mpr ⟨fun b hb => ?_, ih (some (key x)) hsorted.2⟩
      have hne : some (key x) ≠ some (key b) :=
        (newest_of_mem_firsts_aux (some (key x)) hsorted.2
          (fun p hp c hc => Option.some.inj hp ▸ (hsorted.1 c hc).key_le) hb).1
      have hle := (hsorted.1 b ((firsts_sublist (some (key x)) L).subset hb)).key_le
      exact hle.lt_of_ne fun heq => hne (congrArg some heq)

/-- **The first versions are the newest ones**, where a version is told by its key and number. -/
theorem mem_firsts_iff (hsorted : L.Pairwise (Le key seq))
    (hinj : ∀ x ∈ L, ∀ y ∈ L, key x = key y → seq x = seq y → x = y) :
    a ∈ firsts key none L ↔ a ∈ L ∧ ∀ b ∈ L, key b = key a → seq b ≤ seq a := by
  refine ⟨fun ha => ⟨(firsts_sublist none L).subset ha, newest_of_mem_firsts hsorted ha⟩, ?_⟩
  rintro ⟨hmem, hnewest⟩
  obtain ⟨b, hb, hbk⟩ := exists_mem_firsts (k := key a) none ⟨a, hmem, rfl⟩ (by simp)
  have hbL : b ∈ L := (firsts_sublist none L).subset hb
  have hab : seq a ≤ seq b := newest_of_mem_firsts hsorted hb a hmem hbk.symm
  rwa [← hinj b hbL a hmem hbk ((hnewest b hbL hbk).antisymm hab)]

/-- **What a reader sees of the first versions**: the newest version, if it is not too new. -/
theorem sees_firsts_iff (hsorted : L.Pairwise (Le key seq))
    (hinj : ∀ x ∈ L, ∀ y ∈ L, seq x = seq y → x = y) : Sees key seq (firsts key none L) k S a ↔
      Sees key seq L k S a ∧ ∀ b ∈ L, key b = k → seq b ≤ S := by
  have hsub : ∀ {b}, b ∈ firsts key none L → b ∈ L := fun hb => (firsts_sublist none L).subset hb
  constructor
  · rintro ⟨hmem, hkey, hle, -⟩
    have hmax : ∀ b ∈ L, key b = k → seq b ≤ seq a := fun b hb hbk =>
      newest_of_mem_firsts hsorted hmem b hb (hbk.trans hkey.symm)
    exact ⟨⟨hsub hmem, hkey, hle, fun b hb hbk _ => hmax b hb hbk⟩,
      fun b hb hbk => (hmax b hb hbk).trans hle⟩
  · rintro ⟨⟨hmem, hkey, hle, hnewest⟩, hall⟩
    -- the first version of the key is `a`
    obtain ⟨b, hb, hbk⟩ := exists_mem_firsts none ⟨a, hmem, hkey⟩ (by simp)
    have hba : seq b ≤ seq a := hnewest b (hsub hb) hbk (hall b (hsub hb) hbk)
    have hab : seq a ≤ seq b := newest_of_mem_firsts hsorted hb a hmem (hkey.trans hbk.symm)
    obtain rfl : b = a := hinj b (hsub hb) a hmem (hba.antisymm hab)
    exact ⟨hb, hkey, hle, fun c hc hck hcS => hnewest c (hsub hc) hck hcS⟩

end McfKv.Versions
