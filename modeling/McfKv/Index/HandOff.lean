import Mathlib.Algebra.Order.Group.Multiset
import McfKv.Lib.Run

/-!
# The hand-off queue of the index (`multi-cuckoo-index/multi_cuckoo_index.cc`)

Table builders hand their keys to the index in batches. `AddQueue` swaps the caller's
deque with `queue_` and stores the mode of the batch, that is `for_update_` and `edit_`;
the background thread `Runner` empties `queue_` through `Insert` or `Update`, according
to the mode it finds. Everything `AddQueue` does happens under `mutex_`, and so does one
drain of `Runner`, so both are single steps here.

`AddQueue` asserts that `queue_` is empty, but the project is built with `-DNDEBUG`. When
the queue still holds a batch, the swap gives that batch to the caller, who destroys it.

`Accounted` is the ledger of the queue: nothing was handed back, and what was submitted
and not yet applied *in the mode of its own batch* is what the queue holds.
`accounted_iff_empty` says that the ledger is right in every state of a run exactly when
every `AddQueue` of the run finds the queue empty.
-/

namespace McfKv.HandOff

open Run

/-- `struct KeyAndMeta`. -/
structure KeyAndMeta where
  key : ℕ
  fileNumber : ℕ
deriving DecidableEq, Repr

/-- The mode of a batch: `for_update_`, and `edit_` by its address. -/
structure Mode where
  forUpdate : Bool
  edit : Option ℕ
deriving DecidableEq, Repr

/-- An entry together with a mode. -/
abbrev Job := KeyAndMeta × Mode

/-- The queue and its mode. The last three fields record the history: every entry passed
to `AddQueue` with the mode of its batch, every successful call of `Insert` or `Update`
with the mode it was made in, and the entries that a caller got back. -/
structure State where
  queue : List KeyAndMeta
  mode : Mode
  submitted : Multiset Job
  applied : Multiset Job
  returned : List KeyAndMeta

/-- The state of a new index. -/
def init : State where
  queue := []
  mode := ⟨false, none⟩
  submitted := 0
  applied := 0
  returned := []

/-- The two kinds of atomic steps. A drain is given what each call of `Insert` or
`Update` returns. -/
inductive Step where
  | addQueue (queue : List KeyAndMeta) (mode : Mode)
  | drain (outcomes : List Bool)

/-- `MultiCuckooIndex::AddQueue`. -/
def addQueue (s : State) (queue : List KeyAndMeta) (mode : Mode) : State where
  queue := queue
  mode := mode
  submitted := s.submitted + (queue.map fun e => (e, mode) : List Job)
  applied := s.applied
  returned := s.returned ++ s.queue

/-- The loop of `Runner`: an entry whose call fails moves to the back of the queue. The
result is `none` when the outcomes do not empty the queue exactly. -/
def drainLoop (mode : Mode) : List Bool → List KeyAndMeta → Multiset Job → Option (Multiset Job)
  | [], [], applied => some applied
  | [], _ :: _, _ => none
  | _ :: _, [], _ => none
  | true :: outcomes, e :: queue, applied => drainLoop mode outcomes queue ((e, mode) ::ₘ applied)
  | false :: outcomes, e :: queue, applied => drainLoop mode outcomes (queue ++ [e]) applied

/-- One atomic step; a drain waits until the queue has an entry. -/
def step (s : State) : Step → Option State
  | .addQueue queue mode => some (addQueue s queue mode)
  | .drain outcomes =>
    if s.queue = [] then none
    else (drainLoop s.mode outcomes s.queue s.applied).map fun applied =>
      { s with queue := [], applied := applied }

theorem drainLoop_applied {mode : Mode} {outcomes : List Bool} :
    ∀ {queue : List KeyAndMeta} {applied applied' : Multiset Job},
      drainLoop mode outcomes queue applied = some applied' →
        applied' = applied + (queue.map fun e => (e, mode) : List Job) := by
  induction outcomes with
  | nil =>
    intro queue applied applied' h
    cases queue with
    | nil =>
      obtain rfl : applied = applied' := by simpa [drainLoop] using h
      simp
    | cons e queue => simp [drainLoop] at h
  | cons outcome outcomes ih =>
    intro queue applied applied' h
    cases queue with
    | nil => simp [drainLoop] at h
    | cons e queue =>
      cases outcome with
      | true =>
        rw [ih h, List.map_cons, ← Multiset.cons_coe, Multiset.add_cons, Multiset.cons_add]
      | false =>
        rw [ih h, List.map_append, List.map_cons, List.map_nil, List.map_cons,
          ← Multiset.cons_coe, ← Multiset.coe_add, Multiset.coe_singleton,
          ← Multiset.singleton_add, Multiset.add_comm {(e, mode)}]

/-- The ledger of the queue. -/
structure Accounted (s : State) : Prop where
  nothingReturned : s.returned = []
  appliedSubmitted : s.applied ≤ s.submitted
  restQueued : (s.submitted - s.applied).map Prod.fst = (s.queue : Multiset KeyAndMeta)

/-- What every state satisfies as long as no `AddQueue` finds the queue occupied: the rest
is queued *under the mode of its own batch*. -/
structure Inv (s : State) : Prop where
  nothingReturned : s.returned = []
  balance : s.submitted = s.applied + (s.queue.map fun e => (e, s.mode) : List Job)

theorem Inv.accounted {s : State} (h : Inv s) : Accounted s := by
  refine ⟨h.nothingReturned, ?_, ?_⟩
  · rw [h.balance]
    exact Multiset.le_add_right _ _
  · rw [h.balance, add_tsub_cancel_left, Multiset.map_coe, List.map_map]
    simp [Function.comp_def]

theorem init_inv : Inv init := ⟨rfl, rfl⟩

/-- The condition on a step: `AddQueue` finds the queue empty. -/
def FindsEmpty (s : State) : Step → Prop
  | .addQueue _ _ => s.queue = []
  | .drain _ => True

theorem step_inv {s s' : State} {a : Step} (h : Inv s) (hok : FindsEmpty s a)
    (hstep : step s a = some s') : Inv s' := by
  cases a with
  | addQueue queue mode =>
    obtain rfl := Option.some.inj hstep
    have hempty : s.queue = [] := hok
    refine ⟨by simp [addQueue, h.nothingReturned, hempty], ?_⟩
    simp [addQueue, h.balance, hempty]
  | drain outcomes =>
    unfold step at hstep
    split_ifs at hstep with hqueue
    obtain ⟨applied', hloop, rfl⟩ := Option.map_eq_some_iff.mp hstep
    refine ⟨h.nothingReturned, ?_⟩
    rw [h.balance, drainLoop_applied hloop]
    simp

/-- **When the hand-off loses nothing.** In every state of a run each submitted entry is
still queued or was applied once in the mode of its own batch, and none was handed back,
if and only if every `AddQueue` of the run finds the queue empty. -/
theorem accounted_iff_empty (steps : List Step) :
    Always step Accounted init steps ↔ Meets step FindsEmpty init steps := by
  refine always_iff_meets (fun s h => h.accounted) (fun s a s' h _ => step_inv h) ?_ init_inv
    (meets_of_forall (fun _ _ => trivial) _ _)
  intro s a h _ hbad
  cases a with
  | addQueue queue mode =>
    refine ⟨_, rfl, fun hacc => hbad ?_⟩
    exact (List.append_eq_nil_iff.mp hacc.nothingReturned).2
  | drain outcomes => exact absurd trivial hbad

/-- Two batches handed over before `Runner` wakes up. -/
def backToBack : List Step :=
  [.addQueue [⟨1, 10⟩] ⟨false, some 1⟩, .addQueue [⟨2, 20⟩] ⟨true, some 2⟩]

/-- The first of two batches handed over back to back is given back to the second caller;
it is neither queued nor applied. -/
theorem backToBack_drops_batch :
    ∃ s, runFrom step init backToBack = some s ∧ s.returned = [⟨1, 10⟩] ∧
      ⟨1, 10⟩ ∉ s.queue ∧ s.applied = 0 ∧ ¬ Always step Accounted init backToBack := by
  refine ⟨_, rfl, rfl, by decide, rfl, ?_⟩
  rintro ⟨-, h⟩
  obtain ⟨-, h⟩ := h _ rfl
  have hnil := (h _ rfl : Accounted _).nothingReturned
  simp [addQueue, init] at hnil

end McfKv.HandOff
