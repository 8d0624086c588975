import Mathlib.Data.Finset.Card
import Mathlib.Logic.Function.Basic
import McfKv.Util.Coding

/-!
# The hash table of the cache

`HandleTable` is an array of buckets, and a bucket is a linked list of entries. `FindPointer` finds
the link that leads to the entry of a key, and `Insert` and `Remove` store to that link. `Resize`
puts every entry in front of its bucket in a new array.

`Holds` says which entries the table has, and `Holds.lookup_spec`, `Holds.insert_spec` and
`Holds.remove_spec` say what the operations do.
-/

namespace McfKv.Cache

/-- `class HandleTable`; `list i` are the entries of the bucket `i`, in the order of their
`next_hash` links. `length_` and `elems_` are `uint32_t`. -/
structure HandleTable where
  length : ℕ
  elems : ℕ
  list : ℕ → List ℕ

namespace HandleTable

section Code

-- the key and the hash of an entry; an entry that is not allocated has none
variable (entry : ℕ → Option (Slice × ℕ))

/-- The loop of `FindPointer`. The pointer is given by the entries before it and those after it. -/
def findLoop (key : Slice) (hash : ℕ) : List ℕ → List ℕ → Option (List ℕ × List ℕ)
  | before, [] => some (before, [])
  | before, p :: rest => do
    let e ← entry p
    if e.2 ≠ hash ∨ key ≠ e.1 then findLoop key hash (before ++ [p]) rest
    else some (before, p :: rest)

/-- The bucket of a hash. -/
def index (n hash : ℕ) : ℕ := hash &&& (n - 1)

/-- `FindPointer` -/
def findPointer (t : HandleTable) (key : Slice) (hash : ℕ) : Option (List ℕ × List ℕ) :=
  findLoop entry key hash [] (t.list (index t.length hash))

/-- `Lookup` -/
def lookup (t : HandleTable) (key : Slice) (hash : ℕ) : Option (Option ℕ) := do
  let ptr ← t.findPointer entry key hash
  some ptr.2.head?

/-- The first loop of `Resize`; the length is a `uint32_t`. -/
def newLength (elems : ℕ) : ℕ → ℕ → Option ℕ
  | 0, _ => none
  | fuel + 1, n => if n < elems then newLength elems fuel (n * 2 % 2 ^ 32) else some n

/-- The body of the second loop of `Resize`: an entry goes to the front of its bucket. -/
def move (n : ℕ) (list : ℕ → List ℕ) (h : ℕ) : Option (ℕ → List ℕ) := do
  let e ← entry h
  some (Function.update list (index n e.2) (h :: list (index n e.2)))

/-- `Resize` -/
def resize (t : HandleTable) : Option HandleTable := do
  let n ← newLength t.elems 33 4
  let list ← ((List.range t.length).flatMap t.list).foldlM (move entry n) fun _ => []
  some { t with length := n, list := list }

/-- `HandleTable()` -/
def new : Option HandleTable := resize (fun _ => none) ⟨0, 0, fun _ => []⟩

/-- `Insert`; returns the entry that is replaced. -/
def insert (t : HandleTable) (h : ℕ) : Option (HandleTable × Option ℕ) := do
  let e ← entry h
  let (before, rest) ← t.findPointer entry e.1 e.2
  let t := { t with list := Function.update t.list (index t.length e.2) (before ++ h :: rest.tail) }
  match rest.head? with
  | some old => some (t, some old)
  | none =>
    let t := { t with elems := (t.elems + 1) % 2 ^ 32 }
    if t.elems > t.length then (t.resize entry).map fun t => (t, none) else some (t, none)

/-- `Remove`; returns the entry. -/
def remove (t : HandleTable) (key : Slice) (hash : ℕ) : Option (HandleTable × Option ℕ) := do
  let (before, rest) ← t.findPointer entry key hash
  match rest with
  | [] => some (t, none)
  | p :: rest =>
    some (⟨t.length, (t.elems + (2 ^ 32 - 1)) % 2 ^ 32,
      Function.update t.list (index t.length hash) (before ++ rest)⟩, some p)

end Code

/-! ## The entries of the table -/

variable {entry : ℕ → Option (Slice × ℕ)} {n i : ℕ} {list : ℕ → List ℕ} {t : HandleTable}
  {S : Finset ℕ}

/-- The bucket that an entry belongs to. -/
def home (entry : ℕ → Option (Slice × ℕ)) (n p : ℕ) : Option ℕ := (entry p).map fun e => index n e.2

/-- Every bucket has the entries that belong to it. -/
def Buckets (entry : ℕ → Option (Slice × ℕ)) (n : ℕ) (list : ℕ → List ℕ) (S : Finset ℕ) : Prop :=
  ∀ i < n, (list i).Nodup ∧ ∀ p, p ∈ list i ↔ p ∈ S ∧ home entry n p = some i

/-- **The table has the entries `S`**: each in its bucket, and at most one for each key. -/
structure Holds (entry : ℕ → Option (Slice × ℕ)) (t : HandleTable) (S : Finset ℕ) : Prop where
  pos : 0 < t.length
  elems : t.elems = S.card
  fits : S.card ≤ t.length ∧ t.length ≤ 2 ^ 31
  buckets : Buckets entry t.length t.list S
  live : ∀ p ∈ S, entry p ≠ none
  keys : ∀ p ∈ S, ∀ q ∈ S, entry p = entry q → p = q

theorem index_lt (hn : 0 < n) (hash : ℕ) : index n hash < n :=
  (Nat.and_le_right.trans_lt (Nat.sub_lt hn Nat.one_pos))

theorem Buckets.update {S' : Finset ℕ} {l : List ℕ} (hb : Buckets entry n list S) (hl : l.Nodup)
    (hmem : ∀ p, p ∈ l ↔ p ∈ S' ∧ home entry n p = some i)
    (hothers : ∀ p, home entry n p ≠ some i → (p ∈ S' ↔ p ∈ S)) :
    Buckets entry n (Function.update list i l) S' := by
  intro j hj
  by_cases hij : j = i
  · subst hij
    rw [Function.update_self]
    exact ⟨hl, hmem⟩
  · rw [Function.update_of_ne hij]
    refine ⟨(hb j hj).1, fun p => ((hb j hj).2 p).trans ?_⟩
    grind

theorem Holds.congr (h : t.Holds entry S) {entry' : ℕ → Option (Slice × ℕ)}
    (heq : ∀ p ∈ S, entry' p = entry p) : t.Holds entry' S := by
  refine ⟨h.pos, h.elems, h.fits, fun i hi => ⟨(h.buckets i hi).1, fun p => ?_⟩, ?_, ?_⟩
  · rw [(h.buckets i hi).2]
    exact and_congr_right fun hp => by rw [home, home, heq p hp]
  · grind [h.live]
  · grind [h.keys]

theorem findLoop_spec {key : Slice} {hash : ℕ} (before : List ℕ) {l : List ℕ}
    (hlive : ∀ p ∈ l, entry p ≠ none) (hbefore : ∀ p ∈ before, entry p ≠ some (key, hash)) :
    ∃ before' rest, findLoop entry key hash before l = some (before', rest) ∧
      before ++ l = before' ++ rest ∧ (∀ p ∈ before', entry p ≠ some (key, hash)) ∧
        ∀ p ∈ rest.head?, entry p = some (key, hash) := by
  induction l generalizing before with
  | nil => exact ⟨before, [], rfl, rfl, hbefore, by simp⟩
  | cons p l ih =>
    obtain ⟨e, he⟩ := Option.ne_none_iff_exists'.mp (hlive p List.mem_cons_self)
    by_cases hmatch : e.2 ≠ hash ∨ key ≠ e.1
    · obtain ⟨before', rest, hfind, heq, hspec⟩ := ih (before ++ [p])
        (fun q hq => hlive q (List.mem_cons_of_mem p hq)) (by grind)
      exact ⟨before', rest, by simpa [findLoop, he, hmatch] using hfind, by simpa using heq, hspec⟩
    · exact ⟨before, p :: l, by simp [findLoop, he, hmatch], rfl, hbefore, by grind⟩

section

variable (h : t.Holds entry S) (key : Slice) (hash : ℕ)

include h key hash

/-- **`FindPointer` finds the link to the entry of a key**, if there is one, and else the link at
the end of the bucket. -/
theorem Holds.find : ∃ before rest, t.findPointer entry key hash = some (before, rest) ∧
    t.list (index t.length hash) = before ++ rest ∧
    ∀ p, rest.head? = some p ↔ p ∈ S ∧ entry p = some (key, hash) := by
  obtain ⟨-, hmem⟩ := h.buckets _ (index_lt h.pos hash)
  have hnil : ∀ p ∈ ([] : List ℕ), entry p ≠ some (key, hash) := by simp
  obtain ⟨before, rest, hfind, heq, hbefore, hrest⟩ :=
    findLoop_spec [] (fun p hp => h.live p ((hmem p).mp hp).1) hnil
  rw [List.nil_append] at heq
  refine ⟨before, rest, hfind, heq, fun p => ⟨fun hp => ⟨?_, hrest p hp⟩, ?_⟩⟩
  · exact ((hmem p).mp (by simp [heq, List.mem_of_head? hp])).1
  · rintro ⟨hpS, hp⟩
    have hpl := (hmem p).mpr ⟨hpS, by simp [home, hp]⟩
    rw [heq, List.mem_append] at hpl
    obtain hpb | hpr := hpl
    · exact absurd hp (hbefore p hpb)
    · obtain ⟨q, r, rfl⟩ := List.exists_cons_of_ne_nil (List.ne_nil_of_mem hpr)
      have hq := (hmem q).mp (by simp [heq])
      rw [h.keys p hpS q hq.1 (hp.trans (hrest q rfl).symm)]
      rfl

/-- **`Lookup` returns the entry of the key.** -/
theorem Holds.lookup_spec : ∃ r, t.lookup entry key hash = some r ∧
    ∀ p, r = some p ↔ p ∈ S ∧ entry p = some (key, hash) := by
  obtain ⟨before, rest, hfind, -, hhead⟩ := h.find key hash
  exact ⟨rest.head?, by simp [lookup, hfind], hhead⟩

/-- **`Remove` takes the entry of the key out of the table.** -/
theorem Holds.remove_spec : ∃ t' r, t.remove entry key hash = some (t', r) ∧
    (∀ p, r = some p ↔ p ∈ S ∧ entry p = some (key, hash)) ∧
    t'.Holds entry (S.filter fun q => r ≠ some q) := by
  obtain ⟨before, rest, hfind, heq, hhead⟩ := h.find key hash
  obtain ⟨hnodup, hmem⟩ := h.buckets _ (index_lt h.pos hash)
  cases rest with
  | nil => exact ⟨t, none, by simp [remove, hfind], hhead, by simpa using h⟩
  | cons p r =>
    have hp := (hhead p).mp rfl
    have hhome : home entry t.length p = some (index t.length hash) := by simp [home, hp.2]
    rw [heq] at hnodup hmem
    have herase : S.filter (fun q => some p ≠ some q) = S.erase p := by grind
    have hcard := Finset.card_erase_add_one hp.1
    have hfits := h.fits
    have helems := h.elems
    refine ⟨⟨t.length, (t.elems + (2 ^ 32 - 1)) % 2 ^ 32,
      Function.update t.list (index t.length hash) (before ++ r)⟩, some p,
      by rw [remove, hfind]; rfl, hhead, ?_⟩
    rw [herase]
    exact ⟨h.pos, by simp only; omega, ⟨by simp only; omega, hfits.2⟩,
      h.buckets.update (by grind) (by grind) (by grind), by grind [h.live], by grind [h.keys]⟩

end

theorem newLength_zero {elems : ℕ} (h : 0 < elems) (fuel : ℕ) : newLength elems fuel 0 = none := by
  induction fuel with
  | zero => rfl
  | succ fuel ih => rwa [newLength, if_pos h]

/-- The new length is large enough. For more than `2^31` entries the loop doubles it to `0` and
does not end. -/
theorem newLength_spec (elems fuel : ℕ) {k : ℕ} (hk : k ≤ 31) (hfuel : 31 < fuel + k) :
    newLength elems fuel (2 ^ k) = none ∧ 2 ^ 31 < elems ∨
      ∃ n, newLength elems fuel (2 ^ k) = some n ∧ 0 < n ∧ elems ≤ n ∧ n ≤ 2 ^ 31 := by
  induction fuel generalizing k with
  | zero => omega
  | succ fuel ih =>
    rw [newLength]
    split
    case isTrue hlt =>
      rcases Nat.lt_or_eq_of_le hk with hk | rfl
      · have hdouble : 2 ^ k * 2 % 2 ^ 32 = 2 ^ (k + 1) := by
          rw [← pow_succ]
          exact Nat.mod_eq_of_lt (Nat.pow_lt_pow_right (by decide) (by omega))
        rw [hdouble]
        exact ih hk (by omega)
      · exact .inl ⟨newLength_zero (by omega) fuel, hlt⟩
    case isFalse hle =>
      exact .inr ⟨2 ^ k, rfl, by positivity, by omega, Nat.pow_le_pow_right (by decide) hk⟩

theorem moves_spec (hn : 0 < n) {l : List ℕ} (hb : Buckets entry n list S) (hl : l.Nodup)
    (hnew : ∀ p ∈ l, p ∉ S ∧ entry p ≠ none) : ∃ list', l.foldlM (move entry n) list = some list' ∧
      Buckets entry n list' (S ∪ l.toFinset) := by
  induction l generalizing list S with
  | nil => exact ⟨list, rfl, by simpa using hb⟩
  | cons p l ih =>
    obtain ⟨hpS, hlive⟩ := hnew p List.mem_cons_self
    obtain ⟨e, he⟩ := Option.ne_none_iff_exists'.mp hlive
    have hhome : home entry n p = some (index n e.2) := by simp [home, he]
    obtain ⟨hnodup, hmem⟩ := hb _ (index_lt hn e.2)
    have hb' : Buckets entry n (Function.update list (index n e.2) (p :: list (index n e.2)))
        (S ∪ {p}) := hb.update (by grind) (by grind) (by grind)
    obtain ⟨list', hfold, hb'⟩ := ih hb' (List.nodup_cons.mp hl).2 (by grind)
    refine ⟨list', by simpa [List.foldlM_cons, move, he] using hfold, ?_⟩
    rwa [List.toFinset_cons, ← Finset.singleton_union, ← Finset.union_assoc]

/-- **`Resize` keeps the entries.** It does not return for more than `2^31` entries. -/
theorem resize_spec (hb : Buckets entry t.length t.list S) (hlive : ∀ p ∈ S, entry p ≠ none)
    (hhome : ∀ p ∈ S, 0 < t.length) : t.resize entry = none ∧ 2 ^ 31 < t.elems ∨
      ∃ n list, t.resize entry = some ⟨n, t.elems, list⟩ ∧ 0 < n ∧ t.elems ≤ n ∧ n ≤ 2 ^ 31 ∧
        Buckets entry n list S := by
  have hbucket : ∀ i ∈ List.range t.length, (t.list i).Nodup ∧
      ∀ p, p ∈ t.list i ↔ p ∈ S ∧ home entry t.length p = some i := fun i hi =>
    hb i (List.mem_range.mp hi)
  have hmem : ∀ p, p ∈ (List.range t.length).flatMap t.list ↔ p ∈ S := by
    intro p
    rw [List.mem_flatMap]
    refine ⟨fun ⟨i, hi, hp⟩ => (((hbucket i hi).2 p).mp hp).1, fun hp => ?_⟩
    obtain ⟨e, he⟩ := Option.ne_none_iff_exists'.mp (hlive p hp)
    have hi := List.mem_range.mpr (index_lt (hhome p hp) e.2)
    exact ⟨_, hi, ((hbucket _ hi).2 p).mpr ⟨hp, by simp [home, he]⟩⟩
  have hnodup : ((List.range t.length).flatMap t.list).Nodup := by
    rw [List.nodup_flatMap]
    refine ⟨fun i hi => (hbucket i hi).1,
      List.nodup_range.imp_of_mem fun hi hj hij p hp hq => hij ?_⟩
    have := (((hbucket _ hi).2 p).mp hp).2
    have := (((hbucket _ hj).2 p).mp hq).2
    grind
  rcases newLength_spec t.elems 33 (k := 2) (by decide) (by decide) with
    ⟨hlen, hmany⟩ | ⟨n, hlen, hn, hlarge, hsmall⟩
  · exact .inl ⟨by rw [resize, show 4 = 2 ^ 2 from rfl, hlen]; rfl, hmany⟩
  · have hempty : Buckets entry n (fun _ => []) ∅ := fun i _ => by simp
    obtain ⟨list', hfold, hb'⟩ := moves_spec hn hempty hnodup fun p hp =>
      ⟨by simp, hlive p ((hmem p).mp hp)⟩
    refine .inr ⟨n, list', ?_, hn, hlarge, hsmall, ?_⟩
    · rw [resize, show 4 = 2 ^ 2 from rfl, hlen]
      simp [hfold]
    · rwa [show S = ∅ ∪ ((List.range t.length).flatMap t.list).toFinset by ext; simp [← hmem]]

theorem new_spec (entry : ℕ → Option (Slice × ℕ)) : ∃ t, new = some t ∧ t.Holds entry ∅ := by
  refine ⟨⟨4, 0, fun _ => []⟩, rfl, by decide, rfl, by simp, fun i _ => ?_, ?_, ?_⟩ <;> simp

/-- **`Insert` adds an entry and returns the one that had its key.** Only the entry after `2^31`
others is one for which it does not return. -/
theorem Holds.insert_spec (h : t.Holds entry S) {p : ℕ} {e : Slice × ℕ} (he : entry p = some e)
    (hp : p ∉ S) : t.insert entry p = none ∧ S.card = 2 ^ 31 ∨
      ∃ t' old, t.insert entry p = some (t', old) ∧ (∀ q, old = some q ↔ q ∈ S ∧ entry q = some e) ∧
        t'.Holds entry (Insert.insert p (S.filter fun q => old ≠ some q)) := by
  obtain ⟨before, rest, hfind, heq, hhead⟩ := h.find e.1 e.2
  obtain ⟨hnodup, hmem⟩ := h.buckets _ (index_lt h.pos e.2)
  have hhome : home entry t.length p = some (index t.length e.2) := by simp [home, he]
  have hhomes : ∀ q, rest.head? = some q → home entry t.length q = some (index t.length e.2) := by
    intro q hq
    simp [home, ((hhead q).mp hq).2]
  rw [heq] at hnodup hmem
  obtain ⟨S', hS'⟩ : ∃ S', S' = Insert.insert p (S.filter fun q => rest.head? ≠ some q) := ⟨_, rfl⟩
  have hbuckets : Buckets entry t.length
      (Function.update t.list (index t.length e.2) (before ++ p :: rest.tail)) S' := by
    cases rest with
    | nil => exact h.buckets.update (by grind) (by grind) (by grind)
    | cons q r => exact h.buckets.update (by grind) (by grind) (by grind)
  have hlive : ∀ q ∈ S', entry q ≠ none := by grind [h.live]
  have hkeys : ∀ q ∈ S', ∀ q' ∈ S', entry q = entry q' → q = q' := by grind [h.keys]
  have hfits := h.fits
  have helems := h.elems
  suffices t.insert entry p = none ∧ S.card = 2 ^ 31 ∨
      ∃ t', t.insert entry p = some (t', rest.head?) ∧ t'.Holds entry S' from
    this.imp_right fun ⟨t', hinsert, ht'⟩ => ⟨t', _, hinsert, hhead, hS' ▸ ht'⟩
  generalize hlist : Function.update t.list _ _ = list at hbuckets
  cases hold : rest.head? with
  | some old =>
    have hcard : S'.card = S.card := by
      rw [show S' = Insert.insert p (S.erase old) by grind, Finset.card_insert_of_notMem (by grind),
        Finset.card_erase_add_one ((hhead old).mp hold).1]
    exact .inr ⟨⟨t.length, t.elems, list⟩, by simp [insert, he, hfind, hold, hlist], h.pos,
      by simp only; omega, by simp only; omega, hbuckets, hlive, hkeys⟩
  | none =>
    have hcard : S'.card = S.card + 1 := by
      rw [show S' = Insert.insert p S by grind, Finset.card_insert_of_notMem hp]
    have hinc : (t.elems + 1) % 2 ^ 32 = S'.card := by omega
    have hinsert : t.insert entry p = if S'.card > t.length then
        (resize entry ⟨t.length, S'.card, list⟩).map fun t => (t, none)
        else some (⟨t.length, S'.card, list⟩, none) := by
      simp only [insert, he, hfind, hold, hinc, hlist, Option.bind_eq_bind, Option.bind_some]
    rw [hinsert]
    split
    · rcases resize_spec (t := ⟨t.length, S'.card, list⟩) hbuckets hlive fun _ _ => h.pos with
        ⟨hnone, hmany⟩ | ⟨n, list', hresize, hn, hlarge, hsmall, hb⟩
      · exact .inl ⟨by rw [hnone]; rfl, by simp only at hmany; omega⟩
      · exact .inr ⟨_, by rw [hresize]; rfl, hn, rfl, ⟨hlarge, hsmall⟩, hb, hlive, hkeys⟩
    · exact .inr ⟨_, rfl, h.pos, rfl, ⟨by simp only; omega, hfits.2⟩, hbuckets, hlive, hkeys⟩

end HandleTable

end McfKv.Cache
