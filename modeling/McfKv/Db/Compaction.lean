import McfKv.Db.DbFormat
import McfKv.Lib.Assign
import McfKv.Lib.Run
import McfKv.Lib.Versions

/-!
# Compaction, memtable flushes and the index (`db/db_impl.cc`, `db/builder.cc`)

The background thread flushes memtables and compacts files, and both tell the index where
the entries have gone by handing a batch of assignments to it, which another thread
applies. `DoCompactionWork` merges the input files entry by entry and keeps an entry if
the index says, at that moment, that its key lives in an input; the batch for an output
file is only handed over when the file is finished, and overwrites whatever the index says
by then. Between two merged entries the thread may flush a memtable.

A step is one thing the background thread does, or the application of one batch. A flush
waits until its batch has been applied (`LogAndApply` calls `edit->Wait()`), and so does
the installation of the results of a compaction. Keys are taken from any linear order.
-/

namespace McfKv.Compaction

open Assign Run

section Defs

variable {K : Type*} [LinearOrder K]

/-- A version of a key: its internal key without the type. -/
structure Entry (K : Type*) where
  key : K
  seq : ℕ
deriving DecidableEq, Repr

/-- The order of internal keys: ascending keys, descending sequence numbers. -/
abbrev Entry.Le : Entry K → Entry K → Prop := Versions.Le Entry.key Entry.seq

/-- The loop of `BuildTable`: only the first version of each key is added. -/
def buildTable (entries : List (Entry K)) : List (Entry K) :=
  Versions.firsts Entry.key none entries

/-- A batch of the index queue. -/
structure Batch (K : Type*) where
  forUpdate : Bool
  items : List (K × ℕ)

/-- The batch that `TableBuilder::Add` collects for a file. -/
def batchOf (forUpdate : Bool) (file : ℕ) (entries : List (Entry K)) : Batch K :=
  ⟨forUpdate, entries.map fun e => (e.key, file)⟩

/-- `CompactionState` and the local variables of `DoCompactionWork`. -/
structure CompactionState (K : Type*) where
  inputs : List ℕ
  rest : List (Entry K)
  smallestSnapshot : ℕ
  currentUserKey : Option K
  lastSequenceForKey : ℕ
  output : Option (ℕ × List (Entry K))

/-- The variables before the loop of `DoCompactionWork`. -/
def CompactionState.start (rest : List (Entry K)) (inputs : List ℕ) (snapshot : ℕ) :
    CompactionState K where
  inputs := inputs
  rest := rest
  smallestSnapshot := snapshot
  currentUserKey := none
  lastSequenceForKey := maxSequenceNumber
  output := none

/-- The files, the index with its queue, the running compaction, the next file number, and
the highest sequence number of each key flushed so far. -/
structure State (K : Type*) where
  files : ℕ → Option (List (Entry K))
  index : K → Option ℕ
  queue : List (Batch K)
  compaction : Option (CompactionState K)
  nextFile : ℕ
  newest : K → Option ℕ

def State.init : State K where
  files := fun _ => none
  index := fun _ => none
  queue := []
  compaction := none
  nextFile := 1
  newest := fun _ => none

/-- The entries of the input files in the order of the merging iterator. -/
def merged (files : ℕ → Option (List (Entry K))) (inputs : List ℕ) : List (Entry K) :=
  (inputs.flatMap fun f => (files f).getD []).insertionSort Entry.Le

/-- The background thread waits for the batch of a flush. -/
def State.waiting (s : State K) : Bool := s.queue.any fun b => !b.forUpdate

/-- The highest sequence numbers after the versions of a memtable have been flushed. -/
def raise (newest : K → Option ℕ) (mem : List (Entry K)) (k : K) : Option ℕ :=
  let seqs := (mem.filter fun e => e.key = k).map Entry.seq
  if seqs.isEmpty then newest k else some (seqs.foldl max ((newest k).getD 0))

/-- Whether `DoCompactionWork` drops an entry: hidden by a newer version, or no longer in an
input according to the index. -/
def CompactionState.drops (c : CompactionState K) (index : K → Option ℕ) (e : Entry K) : Bool :=
  (if c.currentUserKey = some e.key then c.lastSequenceForKey ≤ c.smallestSnapshot
    else maxSequenceNumber ≤ c.smallestSnapshot) ||
  !(match index e.key with
    | some f => c.inputs.contains f
    | none => false)

/-- The variables after an entry has been merged. -/
def CompactionState.advance (c : CompactionState K) (e : Entry K) (rest : List (Entry K)) :
    CompactionState K :=
  { c with rest := rest, currentUserKey := some e.key, lastSequenceForKey := e.seq }

/-- The steps of the system. -/
inductive Step (K : Type*) where
  | flush (mem : List (Entry K))
  | apply
  | start (inputs : List ℕ) (snapshot : ℕ)
  | merge
  | finish
  | install

/-- `CompactMemTable`: at any time without a compaction, and at the top of the loop of
`DoCompactionWork`. -/
def State.flush (s : State K) (mem : List (Entry K)) : Option (State K) :=
  if s.waiting || (s.compaction.any fun c => c.rest.isEmpty) then none
  else
    let entries := buildTable mem
    some { s with
      files := Function.update s.files s.nextFile (some entries)
      queue := s.queue ++ [batchOf false s.nextFile entries]
      nextFile := s.nextFile + 1
      newest := raise s.newest mem }

/-- One round of the loop of `DoCompactionWork`, without the end of the output file. -/
def State.merge (s : State K) : Option (State K) :=
  if s.waiting then none
  else
    match s.compaction with
    | none => none
    | some c =>
      match c.rest with
      | [] => none
      | e :: rest =>
        let c' := c.advance e rest
        if c.drops s.index e then some { s with compaction := some c' }
        else
          match c.output with
          | none =>
            some { s with
              compaction := some { c' with output := some (s.nextFile, [e]) }
              nextFile := s.nextFile + 1 }
          | some (file, entries) =>
            some { s with
              compaction := some { c' with output := some (file, entries ++ [e]) } }

/-- `FinishCompactionOutputFile`. -/
def State.finish (s : State K) : Option (State K) :=
  if s.waiting then none
  else
    match s.compaction with
    | none => none
    | some c =>
      match c.output with
      | none => none
      | some (file, entries) =>
        some { s with
          files := Function.update s.files file (some entries)
          queue := s.queue ++ [batchOf true file entries]
          compaction := some { c with output := none } }

/-- `InstallCompactionResults`, after which the input files are deleted. -/
def State.install (s : State K) : Option (State K) :=
  match s.compaction with
  | none => none
  | some c =>
    if s.queue.isEmpty && c.rest.isEmpty && c.output.isNone then
      some { s with
        files := fun f => if c.inputs.contains f then none else s.files f
        compaction := none }
    else none

/-- One step of a run; `none` if it is not enabled. -/
def step (s : State K) : Step K → Option (State K)
  | .flush mem => s.flush mem
  | .apply =>
    match s.queue with
    | [] => none
    | b :: queue => some { s with index := assign s.index b.items, queue := queue }
  | .start inputs snapshot =>
    if s.waiting || s.compaction.isSome || !(inputs.all fun f => (s.files f).isSome) then none
    else some { s with compaction := some (.start (merged s.files inputs) inputs snapshot) }
  | .merge => s.merge
  | .finish => s.finish
  | .install => s.install

end Defs

section Flush

variable {K : Type*} [LinearOrder K] {mem : List (Entry K)} {newest : K → Option ℕ} {k : K}

/-- The memtable is in order, and its versions are newer than those flushed before. -/
structure Memtable (newest : K → Option ℕ) (mem : List (Entry K)) : Prop where
  sorted : mem.Pairwise Entry.Le
  newer : ∀ e ∈ mem, ∀ n, newest e.key = some n → n < e.seq

theorem buildTable_subset {e : Entry K} (h : e ∈ buildTable mem) : e ∈ mem :=
  (Versions.firsts_sublist none mem).subset h

/-- **`BuildTable` keeps the newest version of each key.** -/
theorem buildTable_newest (hsorted : mem.Pairwise Entry.Le) (hk : ∃ e ∈ mem, e.key = k) :
    ∃ e ∈ buildTable mem, e.key = k ∧ ∀ e' ∈ mem, e'.key = k → e'.seq ≤ e.seq := by
  obtain ⟨e, he, rfl⟩ := Versions.exists_mem_firsts none hk (by simp)
  exact ⟨e, he, rfl, Versions.newest_of_mem_firsts hsorted he⟩

theorem foldl_max {l : List ℕ} {a n : ℕ} (ha : a ≤ n) (hl : ∀ x ∈ l, x ≤ n) (hn : a = n ∨ n ∈ l) :
    l.foldl max a = n := by
  induction l generalizing a with
  | nil => exact hn.resolve_right List.not_mem_nil
  | cons x l ih =>
    have hx := hl x List.mem_cons_self
    refine ih (max_le ha hx) (fun y hy => hl y (List.mem_cons_of_mem _ hy)) ?_
    rcases hn with rfl | hn
    · exact Or.inl (max_eq_left hx)
    · rcases List.mem_cons.mp hn with rfl | hn
      · exact Or.inl (max_eq_right ha)
      · exact Or.inr hn

theorem raise_of_forall_ne (hk : ∀ e ∈ mem, e.key ≠ k) : raise newest mem k = newest k := by
  have hnil : mem.filter (fun e => e.key = k) = [] := by
    rw [List.filter_eq_nil_iff]
    exact fun e he => by simpa using hk e he
  simp [raise, hnil]

/-- **What a flush does for a key of the memtable**: the file has its newest version. -/
theorem Memtable.newest_flushed (h : Memtable newest mem) (hk : ∃ e ∈ mem, e.key = k) :
    ∃ e ∈ buildTable mem, e.key = k ∧ raise newest mem k = some e.seq ∧
      (∀ e' ∈ mem, e'.key = k → e'.seq ≤ e.seq) ∧ ∀ n, newest k = some n → n ≤ e.seq := by
  obtain ⟨e, he, rfl, hmax⟩ := buildTable_newest h.sorted hk
  have hmem := buildTable_subset he
  have hold : ∀ n, newest e.key = some n → n ≤ e.seq := fun n hn => (h.newer e hmem n hn).le
  refine ⟨e, he, rfl, ?_, hmax, hold⟩
  have hseq : e.seq ∈ (mem.filter fun e' => e'.key = e.key).map Entry.seq :=
    List.mem_map.mpr ⟨e, List.mem_filter.mpr ⟨hmem, by simp⟩, rfl⟩
  unfold raise
  dsimp only
  rw [if_neg (by rw [List.isEmpty_iff]; exact List.ne_nil_of_mem hseq), foldl_max _ _ (Or.inr hseq)]
  · cases hn : newest e.key with
    | none => exact Nat.zero_le _
    | some n => exact hold n hn
  · intro x hx
    obtain ⟨e', he', rfl⟩ := List.mem_map.mp hx
    rw [List.mem_filter] at he'
    exact hmax e' he'.1 (by simpa using he'.2)

theorem Memtable.newest_mono (h : Memtable newest mem) {n : ℕ} (hn : newest k = some n) :
    ∃ n', raise newest mem k = some n' ∧ n ≤ n' := by
  by_cases hk : ∃ e ∈ mem, e.key = k
  · obtain ⟨e, -, -, heq, -, hold⟩ := h.newest_flushed hk
    exact ⟨e.seq, heq, hold n hn⟩
  · push Not at hk
    exact ⟨n, by rw [raise_of_forall_ne hk, hn], le_rfl⟩

end Flush

/-! ## The invariant -/

section Invariant

variable {K : Type*} [LinearOrder K]

/-- The index once the queue has been applied. -/
def State.target (s : State K) : K → Option ℕ := assign s.index (s.queue.flatMap Batch.items)

/-- **The index is current**: it leads to a file with the newest flushed version. -/
def State.Current (s : State K) : Prop :=
  ∀ k n, s.newest k = some n →
    ∃ f es, s.index k = some f ∧ s.files f = some es ∧ ⟨k, n⟩ ∈ es

/-- A version that is not newer than the newest flushed one of its key. -/
def State.Known (s : State K) (e : Entry K) : Prop := ∃ n, s.newest e.key = some n ∧ e.seq ≤ n

/-- The unfinished output has the newest version of each of its keys. -/
structure OutputOk (s : State K) (c : CompactionState K) (file : ℕ) (es : List (Entry K)) :
    Prop where
  lt : file < s.nextFile
  notInput : file ∉ c.inputs
  unused : s.files file = none
  known : ∀ e ∈ es, s.Known e
  newest : ∀ e ∈ es, ∀ n, s.newest e.key = some n → ⟨e.key, n⟩ ∈ es

/-- **A compaction on its way.** A key whose newest version is in an input has it in the
unfinished output, or still to be merged with no version of the key merged before. -/
structure Running (s : State K) (c : CompactionState K) : Prop where
  inputs : ∀ f ∈ c.inputs, f < s.nextFile
  snapshot : c.smallestSnapshot < maxSequenceNumber
  sorted : c.rest.Pairwise fun a b => a.key = b.key → b.seq ≤ a.seq
  known : ∀ e ∈ c.rest, s.Known e
  todo : ∀ k n f, s.newest k = some n → s.target k = some f → f ∈ c.inputs →
    (∃ file es, c.output = some (file, es) ∧ ⟨k, n⟩ ∈ es) ∨
      (⟨k, n⟩ ∈ c.rest ∧ c.currentUserKey ≠ some k)
  output : ∀ file es, c.output = some (file, es) → OutputOk s c file es
  pending : ∀ b ∈ s.queue, ∀ kf ∈ b.items, kf.2 ∉ c.inputs

/-- The invariant of the system. -/
structure Inv (s : State K) : Prop where
  target : ∀ k n, s.newest k = some n →
    ∃ f es, s.target k = some f ∧ s.files f = some es ∧ ⟨k, n⟩ ∈ es
  known : ∀ f es, s.files f = some es → ∀ e ∈ es, s.Known e
  lt : ∀ f es, s.files f = some es → f < s.nextFile
  idle : s.compaction = none → ∀ b ∈ s.queue, b.forUpdate = false
  running : ∀ c, s.compaction = some c → Running s c

theorem Inv.current {s : State K} (h : Inv s) (hqueue : s.queue = []) : s.Current := by
  intro k n hn
  have htarget : s.target = s.index := by
    unfold State.target
    rw [hqueue]
    rfl
  rw [← htarget]
  exact h.target k n hn

theorem init_inv : Inv (State.init : State K) where
  target _ _ hn := absurd hn (by simp [State.init])
  known _ _ hf := absurd hf (by simp [State.init])
  lt _ _ hf := absurd hf (by simp [State.init])
  idle _ _ hb := absurd hb List.not_mem_nil
  running _ hc := absurd hc (by simp [State.init])

variable {b : Batch K} {file f : ℕ} {es : List (Entry K)} {k : K} {c : CompactionState K}
  {inputs : List ℕ} {e : Entry K} {index : K → Option ℕ}

theorem target_enqueue {s s' : State K} (hindex : s'.index = s.index)
    (hqueue : s'.queue = s.queue ++ [b]) : s'.target = assign s.target b.items := by
  unfold State.target
  rw [hindex, hqueue, List.flatMap_append, assign_append]
  simp

omit [LinearOrder K] in
theorem files_cases {s s' : State K} (hfiles : s'.files = Function.update s.files file (some es))
    {es' : List (Entry K)} (hf : s'.files f = some es') :
    (f = file ∧ es' = es) ∨ s.files f = some es' := by
  rw [hfiles] at hf
  by_cases hne : f = file
  · rw [hne, Function.update_self] at hf
    exact Or.inl ⟨hne, (Option.some.inj hf).symm⟩
  · rw [Function.update_of_ne hne] at hf
    exact Or.inr hf

omit [LinearOrder K] in
/-- What is pending is in the batch that was handed over, and then goes to its file, or was pending
before. -/
theorem pending_cases {s s' : State K} {forUpdate : Bool}
    (hqueue : s'.queue = s.queue ++ [batchOf forUpdate file es]) (hb : b ∈ s'.queue) {kf : K × ℕ}
    (hkf : kf ∈ b.items) : b ∈ s.queue ∨ kf.2 = file := by
  rw [hqueue] at hb
  rcases List.mem_append.mp hb with hb | hb
  · exact Or.inl hb
  · rw [List.mem_singleton.mp hb] at hkf
    obtain ⟨e, -, rfl⟩ := List.mem_map.mp hkf
    exact Or.inr rfl

theorem target_apply {s s' : State K} (hqueue : s.queue = b :: s'.queue)
    (hindex : s'.index = assign s.index b.items) : s'.target = s.target := by
  unfold State.target
  rw [hindex, hqueue, List.flatMap_cons, assign_append]

theorem assign_batchOf_of_mem (m : K → Option ℕ) (forUpdate : Bool) (file : ℕ)
    (hk : ∃ e ∈ es, e.key = k) : assign m (batchOf forUpdate file es).items k = some file := by
  obtain ⟨e, he, rfl⟩ := hk
  have hmem : ∃ kv ∈ (batchOf forUpdate file es).items, kv.1 = e.key :=
    ⟨(e.key, file), List.mem_map.mpr ⟨e, he, rfl⟩, rfl⟩
  obtain ⟨v, hv, heq⟩ := assign_of_mem hmem m
  obtain ⟨e', -, hpair⟩ := List.mem_map.mp hv
  rw [heq, ← (Prod.mk.inj hpair).2]

theorem assign_batchOf_of_forall_ne (m : K → Option ℕ) (forUpdate : Bool) (file : ℕ)
    (hk : ∀ e ∈ es, e.key ≠ k) : assign m (batchOf forUpdate file es).items k = m k := by
  refine assign_of_forall_ne (fun kv hkv => ?_) m
  obtain ⟨e, he, rfl⟩ := List.mem_map.mp hkv
  exact hk e he

/-! ## The steps -/

variable {s s' : State K}

/-- A compaction does not depend on which batches have been applied, nor on the file numbers
that have been given away. -/
theorem Running.congr (h : Running s c) (hfiles : s'.files = s.files)
    (htarget : s'.target = s.target) (hnewest : s'.newest = s.newest)
    (hnext : s.nextFile ≤ s'.nextFile) (hqueue : ∀ b ∈ s'.queue, b ∈ s.queue) : Running s' c := by
  have hknown : ∀ e, s.Known e → s'.Known e := fun e he => by
    unfold State.Known
    rw [hnewest]
    exact he
  refine ⟨fun f hf => (h.inputs f hf).trans_le hnext, h.snapshot, h.sorted,
    fun e he => hknown e (h.known e he), ?_, fun file es hout => ?_,
    fun b hb => h.pending b (hqueue b hb)⟩
  · rw [htarget, hnewest]
    exact h.todo
  · have hok := h.output file es hout
    exact ⟨hok.lt.trans_le hnext, hok.notInput, hfiles ▸ hok.unused,
      fun e he => hknown e (hok.known e he), hnewest ▸ hok.newest⟩

theorem Inv.congr (h : Inv s) (hfiles : s'.files = s.files) (htarget : s'.target = s.target)
    (hnewest : s'.newest = s.newest) (hnext : s.nextFile ≤ s'.nextFile)
    (hidle : s'.compaction = none → ∀ b ∈ s'.queue, b.forUpdate = false)
    (hrun : ∀ c, s'.compaction = some c → Running s' c) : Inv s' := by
  refine ⟨?_, ?_, fun f es hf => (h.lt f es (hfiles ▸ hf)).trans_le hnext, hidle, hrun⟩
  · rw [htarget, hfiles, hnewest]
    exact h.target
  · unfold State.Known
    rw [hfiles, hnewest]
    exact h.known

/-- A flush does not touch the keys of the unfinished output. -/
def QuietFlush (s : State K) (mem : List (Entry K)) : Prop :=
  ∀ c file es, s.compaction = some c → c.output = some (file, es) →
    ∀ e ∈ es, ∀ e' ∈ mem, e'.key ≠ e.key

theorem flush_inv {mem : List (Entry K)} (h : Inv s) (hmem : Memtable s.newest mem)
    (hquiet : QuietFlush s mem) (hstep : s.flush mem = some s') : Inv s' := by
  obtain ⟨hfiles, hindex, hqueue, hcomp, hnext, hnewest⟩ :
      s'.files = Function.update s.files s.nextFile (some (buildTable mem)) ∧
      s'.index = s.index ∧
      s'.queue = s.queue ++ [batchOf false s.nextFile (buildTable mem)] ∧
      s'.compaction = s.compaction ∧ s'.nextFile = s.nextFile + 1 ∧
      s'.newest = raise s.newest mem := by
    unfold State.flush at hstep
    split_ifs at hstep
    obtain rfl := Option.some.inj hstep
    exact ⟨rfl, rfl, rfl, rfl, rfl, rfl⟩
  have htarget := target_enqueue hindex hqueue
  -- where a key goes, and which version of it is the newest now
  have hflushed : ∀ k, (∃ e ∈ mem, e.key = k) → ∃ e ∈ buildTable mem, e.key = k ∧
      s'.newest k = some e.seq ∧ s'.target k = some s.nextFile := by
    intro k hk
    obtain ⟨e, he, hek, hnew, -⟩ := hmem.newest_flushed hk
    refine ⟨e, he, hek, by rw [hnewest, hnew], ?_⟩
    rw [htarget, assign_batchOf_of_mem _ _ _ ⟨e, he, hek⟩]
  have hother : ∀ k, (∀ e ∈ mem, e.key ≠ k) →
      s'.newest k = s.newest k ∧ s'.target k = s.target k := by
    intro k hk
    refine ⟨by rw [hnewest, raise_of_forall_ne hk], ?_⟩
    rw [htarget, assign_batchOf_of_forall_ne _ _ _ fun e he => hk e (buildTable_subset he)]
  have hfile : ∀ f, f < s.nextFile → s'.files f = s.files f := fun f hf => by
    rw [hfiles, Function.update_of_ne hf.ne]
  have hknown : ∀ e, s.Known e → s'.Known e := by
    rintro e ⟨n, hn, hle⟩
    obtain ⟨n', hn', hle'⟩ := hmem.newest_mono hn
    exact ⟨n', by rw [hnewest, hn'], hle.trans hle'⟩
  refine ⟨fun k n hn => ?_, fun f es hf e he => ?_, fun f es hf => ?_, fun hidle b hb => ?_,
    fun c hc => ?_⟩
  · by_cases hk : ∃ e ∈ mem, e.key = k
    · obtain ⟨e, he, rfl, hnew, hto⟩ := hflushed k hk
      obtain rfl : e.seq = n := Option.some.inj (hnew.symm.trans hn)
      exact ⟨s.nextFile, _, hto, by rw [hfiles, Function.update_self], he⟩
    · push Not at hk
      obtain ⟨hsame, hto⟩ := hother k hk
      obtain ⟨f, es, hf, hes, hin⟩ := h.target k n (hsame.symm.trans hn)
      exact ⟨f, es, hto.trans hf, (hfile f (h.lt f es hes)).trans hes, hin⟩
  · rcases files_cases hfiles hf with ⟨rfl, rfl⟩ | hf
    · obtain ⟨e', he', hek, hnew, hmax, -⟩ := hmem.newest_flushed ⟨e, buildTable_subset he, rfl⟩
      exact ⟨e'.seq, by rw [hnewest, hnew], hmax e (buildTable_subset he) rfl⟩
    · exact hknown e (h.known f es hf e he)
  · rw [hnext]
    rcases files_cases hfiles hf with ⟨rfl, -⟩ | hf
    · exact Nat.lt_succ_self _
    · exact Nat.lt_succ_of_lt (h.lt f es hf)
  · rw [hqueue] at hb
    rcases List.mem_append.mp hb with hb | hb
    · exact h.idle (hcomp ▸ hidle) b hb
    · rw [List.mem_singleton.mp hb]
      rfl
  · rw [hcomp] at hc
    have hrun := h.running c hc
    refine ⟨fun f hf => ?_, hrun.snapshot, hrun.sorted, fun e he => hknown e (hrun.known e he),
      fun k n f hn hf hin => ?_, fun file es hout => ?_, fun b hb kf hkf => ?_⟩
    · rw [hnext]
      exact Nat.lt_succ_of_lt (hrun.inputs f hf)
    · by_cases hk : ∃ e ∈ mem, e.key = k
      · obtain ⟨e, -, -, -, hto⟩ := hflushed k hk
        obtain rfl : s.nextFile = f := Option.some.inj (hto.symm.trans hf)
        exact absurd (hrun.inputs _ hin) (lt_irrefl _)
      · push Not at hk
        obtain ⟨hsame, hto⟩ := hother k hk
        exact hrun.todo k n f (hsame.symm.trans hn) (hto.symm.trans hf) hin
    · have hok := hrun.output file es hout
      refine ⟨by rw [hnext]; exact Nat.lt_succ_of_lt hok.lt, hok.notInput,
        (hfile file hok.lt).trans hok.unused, fun e he => hknown e (hok.known e he),
        fun e he n hn => ?_⟩
      have hsame := (hother e.key (hquiet c file es hc hout e he)).1
      exact hok.newest e he n (hsame.symm.trans hn)
    · rcases pending_cases hqueue hb hkf with hb | hfile
      · exact hrun.pending b hb kf hkf
      · exact fun hin => absurd (hrun.inputs _ (hfile ▸ hin)) (lt_irrefl _)

theorem apply_inv (h : Inv s) (hstep : step s .apply = some s') : Inv s' := by
  obtain ⟨b, hqueue, hindex, hfiles, hcomp, hnext, hnewest⟩ : ∃ b, s.queue = b :: s'.queue ∧
      s'.index = assign s.index b.items ∧ s'.files = s.files ∧ s'.compaction = s.compaction ∧
      s'.nextFile = s.nextFile ∧ s'.newest = s.newest := by
    unfold step at hstep
    cases hq : s.queue with
    | nil => simp [hq] at hstep
    | cons b queue =>
      simp only [hq, Option.some.injEq] at hstep
      obtain rfl := hstep
      exact ⟨b, rfl, rfl, rfl, rfl, rfl, rfl⟩
  have htarget := target_apply hqueue hindex
  have hsub : ∀ b' ∈ s'.queue, b' ∈ s.queue := fun b' hb' => hqueue ▸ List.mem_cons_of_mem _ hb'
  refine h.congr hfiles htarget hnewest hnext.ge
    (fun hidle b' hb' => h.idle (hcomp ▸ hidle) b' (hsub b' hb')) fun c hc => ?_
  exact (h.running c (hcomp ▸ hc)).congr hfiles htarget hnewest hnext.ge hsub

theorem merged_sorted (files : ℕ → Option (List (Entry K))) (inputs : List ℕ) :
    (merged files inputs).Pairwise fun a b => a.key = b.key → b.seq ≤ a.seq := by
  refine (List.pairwise_insertionSort Entry.Le _).imp fun {a b} hle heq => ?_
  exact hle.seq_le heq

theorem mem_merged {files : ℕ → Option (List (Entry K))} :
    e ∈ merged files inputs ↔ ∃ f ∈ inputs, ∃ es, files f = some es ∧ e ∈ es := by
  unfold merged
  rw [List.mem_insertionSort, List.mem_flatMap]
  refine exists_congr fun f => and_congr_right fun _ => ?_
  cases files f with
  | none => simp
  | some es => simp

theorem start_inv {snapshot : ℕ} (h : Inv s) (hsnapshot : snapshot < maxSequenceNumber)
    (hstep : step s (.start inputs snapshot) = some s') : Inv s' := by
  simp only [step] at hstep
  split_ifs at hstep with hguard
  simp only [Bool.or_eq_true, Bool.not_eq_true', not_or, Bool.not_eq_true, Bool.not_eq_false,
    Option.isSome_eq_false_iff, Option.isNone_iff_eq_none, List.all_eq_true] at hguard
  obtain ⟨⟨hwaiting, hidle⟩, hexist⟩ := hguard
  obtain rfl := Option.some.inj hstep
  -- a batch in the queue would be that of a flush, for which the thread waits
  have hqueue : ∀ b, b ∉ s.queue := by
    intro b hb
    have hlazy : s.waiting = true := List.any_eq_true.mpr ⟨b, hb, by simp [h.idle hidle b hb]⟩
    exact absurd (hlazy.symm.trans hwaiting) (by decide)
  refine ⟨h.target, h.known, h.lt, fun hnone => absurd hnone (by simp), fun c hc => ?_⟩
  obtain rfl := Option.some.inj hc
  refine ⟨fun f hf => ?_, hsnapshot, merged_sorted _ _, fun e he => ?_,
    fun k n f hn hf hin => Or.inr ⟨?_, by simp [CompactionState.start]⟩,
    fun file es hout => absurd hout (by simp [CompactionState.start]),
    fun b hb => absurd hb (hqueue b)⟩
  · obtain ⟨es, hes⟩ := Option.isSome_iff_exists.mp (hexist f hf)
    exact h.lt f es hes
  · obtain ⟨f, -, es, hes, hmem⟩ := mem_merged.mp he
    exact h.known f es hes e hmem
  · obtain ⟨f', es, hf', hes, hmem⟩ := h.target k n hn
    obtain rfl : f = f' := Option.some.inj (hf.symm.trans hf')
    exact mem_merged.mpr ⟨f, hin, es, hes, hmem⟩

theorem merge_cases (hstep : s.merge = some s') :
    ∃ c e rest, s.compaction = some c ∧ c.rest = e :: rest ∧
      s'.files = s.files ∧ s'.index = s.index ∧ s'.queue = s.queue ∧ s'.newest = s.newest ∧
      ((c.drops s.index e = true ∧ s'.nextFile = s.nextFile ∧
          s'.compaction = some (c.advance e rest)) ∨ (c.drops s.index e = false ∧ ∃ file es,
          ((c.output = some (file, es) ∧ s'.nextFile = s.nextFile) ∨
            (c.output = none ∧ file = s.nextFile ∧ es = [] ∧ s'.nextFile = s.nextFile + 1)) ∧
          s'.compaction = some { c.advance e rest with output := some (file, es ++ [e]) })) := by
  unfold State.merge at hstep
  split_ifs at hstep
  cases hc : s.compaction with
  | none => simp [hc] at hstep
  | some c =>
    cases hr : c.rest with
    | nil => simp [hc, hr] at hstep
    | cons e rest =>
      simp only [hc, hr] at hstep
      refine ⟨c, e, rest, rfl, hr, ?_⟩
      split_ifs at hstep with hdrops
      · obtain rfl := Option.some.inj hstep
        exact ⟨rfl, rfl, rfl, rfl, Or.inl ⟨hdrops, rfl, rfl⟩⟩
      · rw [Bool.not_eq_true] at hdrops
        cases ho : c.output with
        | none =>
          simp only [ho] at hstep
          obtain rfl := Option.some.inj hstep
          exact ⟨rfl, rfl, rfl, rfl, Or.inr ⟨hdrops, s.nextFile, [],
            Or.inr ⟨rfl, rfl, rfl, rfl⟩, rfl⟩⟩
        | some out =>
          simp only [ho] at hstep
          obtain rfl := Option.some.inj hstep
          exact ⟨rfl, rfl, rfl, rfl, Or.inr ⟨hdrops, out.1, out.2, Or.inl ⟨rfl, rfl⟩, rfl⟩⟩

/-- While a compaction runs, a key that is going to be in an input is there already. -/
theorem Running.index_eq (h : Running s c) (htarget : s.target k = some f) (hin : f ∈ c.inputs) :
    s.index k = some f := by
  rcases assign_eq_some htarget with hmem | ⟨-, hindex⟩
  · obtain ⟨b, hb, hkf⟩ := List.mem_flatMap.mp hmem
    exact absurd hin (h.pending b hb _ hkf)
  · exact hindex

/-- The first version of a key that is merged is its newest one, if that is still to come. -/
theorem Running.head_eq {rest : List (Entry K)} {n : ℕ} (h : Running s c)
    (hrest : c.rest = e :: rest) (hn : s.newest e.key = some n) (hmem : ⟨e.key, n⟩ ∈ c.rest) :
    e = ⟨e.key, n⟩ := by
  obtain ⟨n', hn', hle⟩ := h.known e (hrest ▸ List.mem_cons_self)
  obtain rfl : n = n' := Option.some.inj (hn.symm.trans hn')
  have hsorted := h.sorted
  rw [hrest] at hmem hsorted
  rcases List.mem_cons.mp hmem with heq | hmem
  · exact heq.symm
  · have hge : n ≤ e.seq := (List.pairwise_cons.mp hsorted).1 _ hmem rfl
    obtain rfl : n = e.seq := hge.antisymm hle
    rfl

/-- The loop does not come to an entry of an input that the index names while a batch that mentions its
key is waiting. This is asked of an older version of the key too, which the loop drops because it has
seen a newer one; the index does not change for such an entry. -/
def QuietMerge (s : State K) : Prop :=
  ∀ c e rest f, s.compaction = some c → c.rest = e :: rest → s.index e.key = some f →
    f ∈ c.inputs → ∀ b ∈ s.queue, ∀ kf ∈ b.items, kf.1 ≠ e.key

theorem CompactionState.index_of_drops_eq_false (h : c.drops index e = false) :
    ∃ f, index e.key = some f ∧ f ∈ c.inputs := by
  unfold CompactionState.drops at h
  rw [Bool.or_eq_false_iff] at h
  cases hf : index e.key with
  | none => simp [hf] at h
  | some f => exact ⟨f, rfl, by simpa [hf] using h.2⟩

theorem CompactionState.drops_first (hsnapshot : c.smallestSnapshot < maxSequenceNumber)
    (hfirst : c.currentUserKey ≠ some e.key) (hindex : index e.key = some f) (hin : f ∈ c.inputs) :
    c.drops index e = false := by
  unfold CompactionState.drops
  rw [if_neg hfirst, hindex]
  simp [hsnapshot, hin]

section Merge

variable {c : CompactionState K} {e : Entry K} {rest : List (Entry K)}

omit [LinearOrder K] in
theorem mem_rest_of_ne {k : K} {n : ℕ} (hrest : c.rest = e :: rest) (hk : e.key ≠ k)
    (hmem : ⟨k, n⟩ ∈ c.rest) : ⟨k, n⟩ ∈ rest := by
  rw [hrest] at hmem
  exact (List.mem_cons.mp hmem).resolve_left fun heq => hk (by rw [← heq])

section

variable (h : Running s c) (hrest : c.rest = e :: rest)

include h hrest

theorem Running.tail :
    (rest.Pairwise fun a b => a.key = b.key → b.seq ≤ a.seq) ∧ ∀ e' ∈ rest, s.Known e' := by
  have hsorted := h.sorted
  rw [hrest, List.pairwise_cons] at hsorted
  exact ⟨hsorted.2, fun e' he' => h.known e' (hrest ▸ List.mem_cons_of_mem _ he')⟩

/-- **An entry is dropped.** It is not the newest version of a key in an input. -/
theorem Running.drop (hdrops : c.drops s.index e = true) : Running s (c.advance e rest) := by
  obtain ⟨hsorted, hknown⟩ := h.tail hrest
  refine ⟨h.inputs, h.snapshot, hsorted, hknown, fun k n f hn hf hin => ?_,
    fun file es hout => ?_, h.pending⟩
  · rcases h.todo k n f hn hf hin with hout | ⟨hmem, hfirst⟩
    · exact Or.inl hout
    · by_cases hk : e.key = k
      · have hkept := CompactionState.drops_first h.snapshot (hk ▸ hfirst)
          (hk ▸ h.index_eq hf hin) hin
        exact absurd (hdrops.symm.trans hkept) (by decide)
      · exact Or.inr ⟨mem_rest_of_ne hrest hk hmem, fun heq => hk (Option.some.inj heq)⟩
  · have hok := h.output file es hout
    exact ⟨hok.lt, hok.notInput, hok.unused, hok.known, hok.newest⟩

/-- **An entry is kept.** If its key is going to be in an input, the first version of the
key that goes to the output is the newest one. -/
theorem Running.keep {f file : ℕ} {es : List (Entry K)} (hf : s.target e.key = some f)
    (hin : f ∈ c.inputs) (hout : c.output = some (file, es) ∨ (c.output = none ∧ es = []))
    (hok : OutputOk s c file es) :
    Running s { c.advance e rest with output := some (file, es ++ [e]) } := by
  obtain ⟨hsorted, hknown⟩ := h.tail hrest
  -- the newest version of a key in an input is in the output, or stays to be merged
  have htodo : ∀ k n f, s.newest k = some n → s.target k = some f → f ∈ c.inputs →
      ⟨k, n⟩ ∈ es ++ [e] ∨ (e.key ≠ k ∧ (⟨k, n⟩ : Entry K) ∈ rest) := by
    intro k n f hn hf hin
    rcases h.todo k n f hn hf hin with ⟨file', es', hout', hmem⟩ | ⟨hmem, -⟩
    · rcases hout with hout | ⟨hout, -⟩
      · obtain ⟨rfl, rfl⟩ := Prod.mk.inj (Option.some.inj (hout.symm.trans hout'))
        exact Or.inl (List.mem_append_left _ hmem)
      · exact absurd (hout.symm.trans hout') (by simp)
    · by_cases hk : e.key = k
      · subst hk
        refine Or.inl (List.mem_append_right _ (List.mem_singleton.mpr ?_))
        exact (h.head_eq hrest hn hmem).symm
      · exact Or.inr ⟨hk, mem_rest_of_ne hrest hk hmem⟩
  refine ⟨h.inputs, h.snapshot, hsorted, hknown, fun k n f hn hf hin => ?_,
    fun file' es' ho => ?_, h.pending⟩
  · rcases htodo k n f hn hf hin with hmem | ⟨hk, hmem⟩
    · exact Or.inl ⟨file, es ++ [e], rfl, hmem⟩
    · exact Or.inr ⟨hmem, fun heq => hk (Option.some.inj heq)⟩
  · obtain ⟨rfl, rfl⟩ := Prod.mk.inj (Option.some.inj ho)
    refine ⟨hok.lt, hok.notInput, hok.unused, fun e' he' => ?_, fun e' he' n hn => ?_⟩
    · rcases List.mem_append.mp he' with he' | he'
      · exact hok.known e' he'
      · rw [List.mem_singleton.mp he']
        exact h.known e (hrest ▸ List.mem_cons_self)
    · rcases List.mem_append.mp he' with he' | he'
      · exact List.mem_append_left _ (hok.newest e' he' n hn)
      · rw [List.mem_singleton.mp he'] at hn ⊢
        exact (htodo e.key n f hn hf hin).resolve_right fun hne => hne.1 rfl

end

end Merge

theorem merge_inv (h : Inv s) (hquiet : QuietMerge s) (hstep : s.merge = some s') : Inv s' := by
  obtain ⟨c, e, rest, hc, hrest, hfiles, hindex, hqueue, hnewest, hcase⟩ := merge_cases hstep
  have hnext : s.nextFile ≤ s'.nextFile := by
    rcases hcase with ⟨-, hnext, -⟩ | ⟨-, file, es, ⟨-, hnext⟩ | ⟨-, -, -, hnext⟩, -⟩ <;> omega
  have htarget : s'.target = s.target := by
    unfold State.target
    rw [hindex, hqueue]
  have hrun : Running s' c :=
    (h.running c hc).congr hfiles htarget hnewest hnext fun b hb => hqueue ▸ hb
  obtain ⟨c', hc', hrun'⟩ : ∃ c', s'.compaction = some c' ∧ Running s' c' := by
    rcases hcase with ⟨hdrops, -, hc'⟩ | ⟨hdrops, file, es, hout, hc'⟩
    · exact ⟨_, hc', hrun.drop hrest (hindex ▸ hdrops)⟩
    · obtain ⟨f, hf, hin⟩ := CompactionState.index_of_drops_eq_false hdrops
      have hf' : s'.target e.key = some f := by
        rw [htarget]
        refine (assign_of_forall_ne (fun kf hkf => ?_) _).trans hf
        obtain ⟨b, hb, hkf⟩ := List.mem_flatMap.mp hkf
        exact hquiet c e rest f hc hrest hf hin b hb kf hkf
      rcases hout with ⟨hout, -⟩ | ⟨hout, rfl, rfl, hnext'⟩
      · exact ⟨_, hc', hrun.keep hrest hf' hin (Or.inl hout) (hrun.output file es hout)⟩
      · -- a new output file
        have hunused : s'.files s.nextFile = none := by
          rw [hfiles]
          cases hes : s.files s.nextFile with
          | none => rfl
          | some es => exact absurd (h.lt _ es hes) (lt_irrefl _)
        refine ⟨_, hc', hrun.keep hrest hf' hin (Or.inr ⟨hout, rfl⟩)
          ⟨by omega, fun hmem => ?_, hunused, by simp, by simp⟩⟩
        exact absurd ((h.running c hc).inputs _ hmem) (lt_irrefl _)
  refine h.congr hfiles htarget hnewest hnext (fun hnone => absurd (hnone.symm.trans hc') (by simp))
    fun c'' hc'' => ?_
  obtain rfl := Option.some.inj (hc'.symm.trans hc'')
  exact hrun'

theorem finish_inv (h : Inv s) (hstep : s.finish = some s') : Inv s' := by
  obtain ⟨c, file, es, hc, hout, hfiles, hindex, hqueue, hcomp, hnext, hnewest⟩ :
      ∃ c file es, s.compaction = some c ∧ c.output = some (file, es) ∧
        s'.files = Function.update s.files file (some es) ∧ s'.index = s.index ∧
        s'.queue = s.queue ++ [batchOf true file es] ∧
        s'.compaction = some { c with output := none } ∧ s'.nextFile = s.nextFile ∧
        s'.newest = s.newest := by
    unfold State.finish at hstep
    split_ifs at hstep
    cases hc : s.compaction with
    | none => simp [hc] at hstep
    | some c =>
      cases ho : c.output with
      | none => simp [hc, ho] at hstep
      | some out =>
        simp only [hc, ho] at hstep
        obtain rfl := Option.some.inj hstep
        exact ⟨c, out.1, out.2, rfl, ho, rfl, rfl, rfl, rfl, rfl, rfl⟩
  have hrun := h.running c hc
  have hok := hrun.output file es hout
  have htarget := target_enqueue hindex hqueue
  have hmoved : ∀ k, (∃ e ∈ es, e.key = k) → s'.target k = some file := fun k hk => by
    rw [htarget, assign_batchOf_of_mem _ _ _ hk]
  have hother : ∀ k, (∀ e ∈ es, e.key ≠ k) → s'.target k = s.target k := fun k hk => by
    rw [htarget, assign_batchOf_of_forall_ne _ _ _ hk]
  have hknown : ∀ e, s.Known e → s'.Known e := fun e he => by
    unfold State.Known
    rw [hnewest]
    exact he
  refine ⟨fun k n hn => ?_, fun f es' hf e he => hknown e ?_, fun f es' hf => ?_,
    fun hnone => absurd (hnone.symm.trans hcomp) (by simp), fun c' hc' => ?_⟩
  · rw [hnewest] at hn
    by_cases hk : ∃ e ∈ es, e.key = k
    · refine ⟨file, es, hmoved k hk, by rw [hfiles, Function.update_self], ?_⟩
      obtain ⟨e, he, rfl⟩ := hk
      exact hok.newest e he n hn
    · push Not at hk
      obtain ⟨f, es', hf, hes', hmem⟩ := h.target k n hn
      have hne : f ≠ file := fun heq => absurd (hes'.symm.trans (heq ▸ hok.unused)) (by simp)
      exact ⟨f, es', (hother k hk).trans hf, by rw [hfiles, Function.update_of_ne hne, hes'], hmem⟩
  · rcases files_cases hfiles hf with ⟨-, rfl⟩ | hf
    · exact hok.known e he
    · exact h.known f es' hf e he
  · rw [hnext]
    rcases files_cases hfiles hf with ⟨rfl, -⟩ | hf
    · exact hok.lt
    · exact h.lt f es' hf
  · obtain rfl := Option.some.inj (hc'.symm.trans hcomp)
    refine ⟨hnext ▸ hrun.inputs, hrun.snapshot, hrun.sorted,
      fun e he => hknown e (hrun.known e he), fun k n f hn hf hin => ?_,
      fun file' es' ho => absurd ho (by simp), fun b hb kf hkf => ?_⟩
    · -- the keys of the output have left the inputs
      have hk : ∀ e ∈ es, e.key ≠ k := by
        rintro e he rfl
        obtain rfl : file = f := Option.some.inj ((hmoved _ ⟨e, he, rfl⟩).symm.trans hf)
        exact hok.notInput hin
      rw [hother k hk] at hf
      rw [hnewest] at hn
      rcases hrun.todo k n f hn hf hin with ⟨file', es', ho, hmem⟩ | htodo
      · obtain ⟨rfl, rfl⟩ := Prod.mk.inj (Option.some.inj (ho.symm.trans hout))
        exact absurd rfl (hk _ hmem)
      · exact Or.inr htodo
    · rcases pending_cases hqueue hb hkf with hb | hfile
      · exact hrun.pending b hb kf hkf
      · rw [hfile]
        exact hok.notInput

theorem install_inv (h : Inv s) (hstep : s.install = some s') : Inv s' := by
  unfold State.install at hstep
  cases hc : s.compaction with
  | none => simp [hc] at hstep
  | some c =>
    simp only [hc] at hstep
    split_ifs at hstep with hguard
    simp only [Bool.and_eq_true, List.isEmpty_iff, Option.isNone_iff_eq_none] at hguard
    obtain ⟨⟨hqueue, hrest⟩, hout⟩ := hguard
    obtain rfl := Option.some.inj hstep
    have hrun := h.running c hc
    have hfiles : ∀ f es, (if c.inputs.contains f then none else s.files f) = some es →
        s.files f = some es := by
      intro f es hf
      split_ifs at hf
      exact hf
    refine ⟨fun k n hn => ?_, fun f es hf => h.known f es (hfiles f es hf),
      fun f es hf => h.lt f es (hfiles f es hf), fun _ b hb => ?_,
      fun c' hc' => absurd hc' (by simp)⟩
    · obtain ⟨f, es, hf, hes, hmem⟩ := h.target k n hn
      refine ⟨f, es, hf, ?_, hmem⟩
      -- nothing is left to be done for a key in an input
      have hin : f ∉ c.inputs := by
        intro hin
        rcases hrun.todo k n f hn hf hin with ⟨file, es', ho, -⟩ | ⟨hmem', -⟩
        · exact absurd (ho.symm.trans hout) (by simp)
        · rw [hrest] at hmem'
          exact absurd hmem' List.not_mem_nil
      dsimp only
      rw [if_neg (by simpa using hin), hes]
    · rw [hqueue] at hb
      exact absurd hb List.not_mem_nil

/-! ## Runs -/

/-- What the rest of the database promises: memtables are in order and newer than what has
been flushed, and sequence numbers stay below the largest one. -/
def State.Promised (s : State K) : Step K → Prop
  | .flush mem => Memtable s.newest mem
  | .start _ snapshot => snapshot < maxSequenceNumber
  | _ => True

/-- **A step does not disturb the compaction**: no memtable that is flushed has a key of the
unfinished output, and no entry is kept while a batch that mentions its key is waiting. -/
def State.Undisturbed (s : State K) : Step K → Prop
  | .flush mem => QuietFlush s mem
  | .merge => QuietMerge s
  | _ => True

theorem step_inv (s : State K) (a : Step K) (s' : State K) (h : Inv s)
    (hok : s.Promised a ∧ s.Undisturbed a) (hstep : step s a = some s') : Inv s' := by
  cases a with
  | flush mem => exact flush_inv h hok.1 hok.2 hstep
  | apply => exact apply_inv h hstep
  | start inputs snapshot => exact start_inv h hok.1 hstep
  | merge => exact merge_inv h hok.2 hstep
  | finish => exact finish_inv h hstep
  | install => exact install_inv h hstep

/-- **No update of the index is lost in an undisturbed run.** In any order of the steps,
with any inputs and any snapshot, the index leads to the newest flushed version of each key
whenever all batches have been applied. Every initial segment of the run is such a run. -/
theorem current_of_undisturbed (steps : List (Step K))
    (hrun : Meets step (fun s a => s.Promised a ∧ s.Undisturbed a) State.init steps)
    (hs : runFrom step State.init steps = some s) (hqueue : s.queue = []) : s.Current := by
  have hinv : Inv s := runFrom_invariant step_inv init_inv hrun hs
  exact hinv.current hqueue

end Invariant

instance decidablePromised (s : State ℕ) : ∀ a : Step ℕ, Decidable (s.Promised a)
  | .flush mem => decidable_of_iff (mem.Pairwise (fun e e' => e.Le e') ∧
      ∀ e ∈ mem, ∀ n ∈ s.newest e.key, n < e.seq) ⟨fun h => ⟨h.1, h.2⟩, fun h => ⟨h.sorted, h.newer⟩⟩
  | .start _ snapshot => inferInstanceAs (Decidable (snapshot < maxSequenceNumber))
  | .apply | .merge | .finish | .install => isTrue trivial

instance decidableUndisturbed (s : State ℕ) : ∀ a : Step ℕ, Decidable (s.Undisturbed a)
  | .flush mem => decidable_of_iff (∀ c ∈ s.compaction, ∀ o ∈ c.output, ∀ e ∈ o.2, ∀ e' ∈ mem,
      e'.key ≠ e.key)
      ⟨fun h c file es hc ho => h c hc (file, es) ho, fun h c hc o ho => h c o.1 o.2 hc ho⟩
  | .merge => decidable_of_iff (∀ c ∈ s.compaction, ∀ e ∈ c.rest.head?, ∀ f ∈ s.index e.key,
      f ∈ c.inputs → ∀ b ∈ s.queue, ∀ kf ∈ b.items, kf.1 ≠ e.key)
    ⟨fun h c e rest f hc hrest => h c hc e (by rw [hrest]; rfl) f,
      fun h c hc e he f => h c e c.rest.tail f hc (List.eq_cons_of_mem_head? he)⟩
  | .apply | .start _ _ | .finish | .install => isTrue trivial

/-- A compaction of a file with two keys, and a flush of a third key in the middle of it. -/
def flushAndCompact : List (Step ℕ) :=
  [.flush [⟨5, 1⟩, ⟨6, 2⟩], .apply, .start [1] 2, .merge, .flush [⟨7, 3⟩], .apply, .merge, .finish,
    .apply, .install]

theorem current_of_undisturbed_flushAndCompact :
    ∃ s, runFrom step State.init flushAndCompact = some s ∧ s.queue = [] ∧
      [5, 6, 7].map s.index = [some 2, some 2, some 3] ∧ s.Current :=
  ⟨_, rfl, rfl, by decide +kernel,
    current_of_undisturbed flushAndCompact (by decide +kernel) rfl rfl⟩

/-- A version of key `5` is flushed after an older one has been merged, and before the
output with the older one is finished. -/
def staleUpdate : List (Step ℕ) :=
  [.flush [⟨5, 1⟩, ⟨6, 2⟩], .apply, .start [1] 2, .merge, .flush [⟨5, 3⟩], .apply, .merge,
    .finish, .apply]

/-- **A lost update.** The batch of the output overwrites that of the flush, and the index
leads to an output file without the newest version. -/
theorem flush_between_merge_and_finish :
    ∃ s, runFrom step State.init staleUpdate = some s ∧ s.queue = [] ∧ ¬ s.Current := by
  refine ⟨_, rfl, rfl, fun hcurrent => ?_⟩
  obtain ⟨f, es, hf, hes, hmem⟩ := hcurrent 5 3 rfl
  obtain rfl : 2 = f := Option.some.inj hf
  obtain rfl : [⟨5, 1⟩, ⟨6, 2⟩] = es := Option.some.inj hes
  exact absurd hmem (by decide)

end McfKv.Compaction
