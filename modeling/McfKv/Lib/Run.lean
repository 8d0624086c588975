import Mathlib.Data.List.Basic

/-!
# Runs of a partial step function

A system is a state type `σ`, an alphabet of steps `α` and a partial step
function `step : σ → α → Option σ`; `none` says that the step is not enabled in
that state, or that it never returns. A *run* feeds a list of steps to the
system (`runFrom`), and a run *meets* a condition when every one of its steps
meets the condition in the state the step starts from (`Meets`).

`runFrom_invariant`, `runFrom_total` and `runFrom_rel` are the rules for invariants, for steps that
return and for simulations, and `runFrom_append` splits a run.

`Always` says that a property holds in every state a run passes through (`always_congr`).
`always_iff_meets` turns an exact condition on single steps into an exact condition on
runs: the property holds throughout a run if and only if the run meets the condition. It
takes a second condition as the range in which the first one is exact.
-/

namespace McfKv.Run

variable {σ α : Type*}

/-- The state a list of steps leads to, if every step of it is enabled. -/
def runFrom (step : σ → α → Option σ) : σ → List α → Option σ
  | s, [] => some s
  | s, a :: as => (step s a).bind fun s' => runFrom step s' as

@[simp] theorem runFrom_nil (step : σ → α → Option σ) (s : σ) : runFrom step s [] = some s := rfl

@[simp] theorem runFrom_cons (step : σ → α → Option σ) (s : σ) (a : α) (as : List α) :
    runFrom step s (a :: as) = (step s a).bind fun s' => runFrom step s' as := rfl

theorem runFrom_append (step : σ → α → Option σ) (s : σ) (as bs : List α) :
    runFrom step s (as ++ bs) = (runFrom step s as).bind fun s' => runFrom step s' bs := by
  induction as generalizing s with
  | nil => rfl
  | cons a as ih =>
    cases hstep : step s a with
    | none => simp [hstep]
    | some s' => simp [hstep, ih]

theorem runFrom_map {β : Type*} (step : σ → α → Option σ) (f : β → α) (s : σ) (bs : List β) :
    runFrom step s (bs.map f) = runFrom (fun s b => step s (f b)) s bs := by
  induction bs generalizing s with
  | nil => rfl
  | cons b bs ih => simp [ih]

/-- Every step of the run meets the condition `ok` in the state it starts from. -/
def Meets (step : σ → α → Option σ) (ok : σ → α → Prop) : σ → List α → Prop
  | _, [] => True
  | s, a :: as => ok s a ∧ ∀ s', step s a = some s' → Meets step ok s' as

instance decidableMeets (step : σ → α → Option σ) (ok : σ → α → Prop)
    [∀ s a, Decidable (ok s a)] : ∀ s as, Decidable (Meets step ok s as)
  | _, [] => inferInstanceAs (Decidable True)
  | s, a :: as =>
    have := fun s' => decidableMeets step ok s' as
    inferInstanceAs (Decidable (ok s a ∧ ∀ s' ∈ step s a, Meets step ok s' as))

variable {step : σ → α → Option σ} {ok : σ → α → Prop} {as : List α} {inv P : σ → Prop} {s : σ}
  {τ : Type*} {step' : τ → α → Option τ} {R : σ → τ → Prop} {t : τ}

theorem meets_of_forall (h : ∀ s a, ok s a) (s : σ) (as : List α) : Meets step ok s as := by
  induction as generalizing s with
  | nil => trivial
  | cons a as ih => exact ⟨h s a, fun s' _ => ih s'⟩

theorem meets_of_mem {ok : α → Prop} (h : ∀ a ∈ as, ok a) (s : σ) :
    Meets step (fun _ a => ok a) s as := by
  induction as generalizing s with
  | nil => trivial
  | cons a as ih =>
    exact ⟨h a List.mem_cons_self, fun s' _ => ih (fun b hb => h b (List.mem_cons_of_mem _ hb)) s'⟩

/-- **The invariant rule.** What holds at the start and is preserved by every
step that meets the condition holds at the end of every run that meets it. -/
theorem runFrom_invariant (preserved : ∀ s a s', inv s → ok s a → step s a = some s' → inv s')
    {s' : σ} (start : inv s) (meets : Meets step ok s as) (hrun : runFrom step s as = some s') :
    inv s' := by
  induction as generalizing s with
  | nil =>
    obtain rfl : s = s' := by simpa using hrun
    exact start
  | cons a as ih =>
    obtain ⟨mid, hstep, hrest⟩ := Option.bind_eq_some_iff.mp hrun
    exact ih (preserved s a mid start meets.1 hstep) (meets.2 mid hstep) hrest

/-- The conditions on the later steps may use the invariant. -/
theorem meets_cons (returns : ∀ s a, inv s → ok s a → ∃ s', step s a = some s' ∧ inv s') {a : α}
    (start : inv s) (hok : ok s a)
    (hrest : ∀ s', step s a = some s' → inv s' → Meets step ok s' as) :
    Meets step ok s (a :: as) := by
  obtain ⟨s', hstep, hinv⟩ := returns s a start hok
  exact ⟨hok, fun t ht => hrest t ht (Option.some.inj (hstep.symm.trans ht) ▸ hinv)⟩

/-- **The invariant rule for steps that return.** If every step that meets the condition
returns and preserves the invariant, every run that meets the condition runs through. -/
theorem runFrom_total (preserved : ∀ s a, inv s → ok s a → ∃ s', step s a = some s' ∧ inv s')
    (start : inv s) (meets : Meets step ok s as) : ∃ s', runFrom step s as = some s' ∧ inv s' := by
  induction as generalizing s with
  | nil => exact ⟨s, rfl, start⟩
  | cons a as ih =>
    obtain ⟨mid, hstep, hmid⟩ := preserved s a start meets.1
    obtain ⟨s', hrun, hs'⟩ := ih hmid (meets.2 mid hstep)
    exact ⟨s', by rw [runFrom_cons, hstep]; exact hrun, hs'⟩

/-- **The simulation rule**, for steps of some kind. If steps of related states are enabled together
and lead to related states, then the same holds for runs. -/
theorem runFrom_rel_of_mem {ok : α → Prop}
    (simulates : ∀ s t a, ok a → R s t → Option.Rel R (step s a) (step' t a)) (start : R s t)
    (has : ∀ a ∈ as, ok a) : Option.Rel R (runFrom step s as) (runFrom step' t as) := by
  induction as generalizing s t with
  | nil => exact .some start
  | cons a as ih =>
    rw [runFrom_cons, runFrom_cons]
    have hnext := simulates s t a (has a List.mem_cons_self) start
    generalize step s a = next at hnext ⊢
    generalize step' t a = next' at hnext ⊢
    cases hnext with
    | none => exact .none
    | some hnext => exact ih hnext fun b hb => has b (List.mem_cons_of_mem _ hb)

/-- **The simulation rule.** -/
theorem runFrom_rel (simulates : ∀ s t a, R s t → Option.Rel R (step s a) (step' t a))
    (start : R s t) (as : List α) : Option.Rel R (runFrom step s as) (runFrom step' t as) :=
  runFrom_rel_of_mem (fun s t a _ => simulates s t a) start fun _ _ => trivial

theorem rel_mono {R' : σ → τ → Prop} (himp : ∀ s t, R s t → R' s t) {a : Option σ} {b : Option τ}
    (h : Option.Rel R a b) : Option.Rel R' a b := by
  cases h with
  | none => exact .none
  | some h => exact .some (himp _ _ h)

/-- The property holds in every state that the run passes through. -/
def Always (step : σ → α → Option σ) (P : σ → Prop) : σ → List α → Prop
  | s, [] => P s
  | s, a :: as => P s ∧ ∀ s', step s a = some s' → Always step P s' as

instance decidableAlways (step : σ → α → Option σ) (P : σ → Prop) [DecidablePred P] :
    ∀ s as, Decidable (Always step P s as)
  | s, [] => inferInstanceAs (Decidable (P s))
  | s, a :: as =>
    have := fun s' => decidableAlways step P s' as
    inferInstanceAs (Decidable (P s ∧ ∀ s' ∈ step s a, Always step P s' as))

/-- Properties that agree on the states of an invariant hold along the same runs. -/
theorem always_congr {Q : σ → Prop} (hiff : ∀ s, inv s → (P s ↔ Q s))
    (preserved : ∀ s a s', inv s → step s a = some s' → inv s') (start : inv s) :
    Always step P s as ↔ Always step Q s as := by
  induction as generalizing s with
  | nil => exact hiff s start
  | cons a as ih =>
    exact and_congr (hiff s start) (forall₂_congr fun s' hstep => ih (preserved s a s' start hstep))

/-- **The exactness rule.** Take runs whose steps stay in a range. If steps that meet the
condition preserve an invariant that implies the property, and a step that does not meet it
goes to a state without the property, then the property holds throughout a run exactly when
the run meets the condition. -/
theorem always_iff_meets {range : σ → α → Prop} (holds : ∀ s, inv s → P s)
    (preserved : ∀ s a s', inv s → range s a → ok s a → step s a = some s' → inv s')
    (violated : ∀ s a, inv s → range s a → ¬ ok s a → ∃ s', step s a = some s' ∧ ¬ P s')
    (start : inv s) (hrange : Meets step range s as) : Always step P s as ↔ Meets step ok s as := by
  induction as generalizing s with
  | nil => exact iff_of_true (holds s start) trivial
  | cons a as ih =>
    have hfirst : ∀ s', Always step P s' as → P s' := by
      intro s' h
      cases as with
      | nil => exact h
      | cons b bs => exact h.1
    constructor
    · rintro ⟨-, hnext⟩
      have hok : ok s a := by
        by_contra hbad
        obtain ⟨s', hstep, hP⟩ := violated s a start hrange.1 hbad
        exact hP (hfirst s' (hnext s' hstep))
      exact ⟨hok, fun s' hs' =>
        (ih (preserved s a s' start hrange.1 hok hs') (hrange.2 s' hs')).mp (hnext s' hs')⟩
    · rintro ⟨hok, hnext⟩
      exact ⟨holds s start, fun s' hs' =>
        (ih (preserved s a s' start hrange.1 hok hs') (hrange.2 s' hs')).mpr (hnext s' hs')⟩

end McfKv.Run
