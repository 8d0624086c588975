import Mathlib.Data.List.Nodup
import Mathlib.Data.List.Perm.Basic

/-!
# Finite maps keyed by a field of their values

`KeyedMap key` is a finite map whose values carry their own key: the entry `v`
sits under `key v`. It is a list of values with pairwise distinct keys, so the
invariant "the key of an entry is the key stored in it" cannot be broken, and the
list order is one enumeration of the map.

`insert` keeps an entry that is already there, as `std::map::insert` and its
unordered sibling do. A key's membership after each operation is a simp lemma;
`find?_eq_some_iff` reads a lookup as membership of the entry.
-/

namespace McfKv

variable {K V : Type*}

/-- A finite map whose entry `v` is stored under `key v`. -/
structure KeyedMap (key : V → K) where
  entries : List V
  nodup : (entries.map key).Nodup

namespace KeyedMap

variable {key : V → K}

/-- The keys of the map, in enumeration order. -/
def keys (m : KeyedMap key) : List K := m.entries.map key

instance : Membership K (KeyedMap key) := ⟨fun m k => k ∈ m.keys⟩

variable {m : KeyedMap key} {k : K} {v w : V} {l : List V}

theorem mem_def : k ∈ m ↔ ∃ v ∈ m.entries, key v = k := by
  change k ∈ m.entries.map key ↔ _
  simp

theorem mem_of_mem_entries (h : v ∈ m.entries) : key v ∈ m :=
  mem_def.mpr ⟨v, h, rfl⟩

instance [DecidableEq K] (m : KeyedMap key) (k : K) : Decidable (k ∈ m) :=
  inferInstanceAs (Decidable (k ∈ m.keys))

/-- The number of entries. -/
def size (m : KeyedMap key) : ℕ := m.entries.length

/-- The map without entries. -/
def empty : KeyedMap key := ⟨[], List.nodup_nil⟩

instance : EmptyCollection (KeyedMap key) := ⟨empty⟩

@[simp] theorem entries_empty : (∅ : KeyedMap key).entries = [] := rfl

@[simp] theorem notMem_empty (k : K) : k ∉ (∅ : KeyedMap key) := by
  simp [mem_def]

theorem eq_of_key_eq (m : KeyedMap key) (hv : v ∈ m.entries) (hw : w ∈ m.entries)
    (h : key v = key w) : v = w :=
  List.inj_on_of_nodup_map m.nodup hv hw h

/-- Keep the entries that satisfy a test. -/
def filter (m : KeyedMap key) (p : V → Bool) : KeyedMap key :=
  ⟨m.entries.filter p, m.nodup.sublist (List.filter_sublist.map key)⟩

@[simp] theorem entries_filter (m : KeyedMap key) (p : V → Bool) :
    (m.filter p).entries = m.entries.filter p := rfl

/-- Change every entry without changing its key. -/
def map (m : KeyedMap key) (g : V → V) (hg : ∀ v, key (g v) = key v) : KeyedMap key :=
  ⟨m.entries.map g, by
    have hkeys : (m.entries.map g).map key = m.entries.map key := by
      simp [List.map_map, Function.comp_def, hg]
    exact hkeys ▸ m.nodup⟩

@[simp] theorem size_map (m : KeyedMap key) (g : V → V) (hg : ∀ v, key (g v) = key v) :
    (m.map g hg).size = m.size := List.length_map g

@[simp] theorem mem_map {m : KeyedMap key} {g : V → V} {hg : ∀ v, key (g v) = key v} {k : K} :
    k ∈ m.map g hg ↔ k ∈ m := by
  simp [mem_def, map, hg]

theorem size_le_of_forall_mem {m' : KeyedMap key} (h : ∀ k ∈ m, k ∈ m') : m.size ≤ m'.size := by
  simpa [size, keys] using (List.subperm_of_subset m.nodup h).length_le

variable [DecidableEq K]

/-- The entry under a key. -/
def find? (m : KeyedMap key) (k : K) : Option V :=
  m.entries.find? fun v => decide (key v = k)

theorem find?_eq_some_iff : m.find? k = some v ↔ v ∈ m.entries ∧ key v = k := by
  constructor
  · intro h
    exact ⟨List.mem_of_find?_eq_some h, by simpa using List.find?_some h⟩
  · rintro ⟨hv, rfl⟩
    cases hfind : m.find? (key v) with
    | none =>
      have := List.find?_eq_none.mp hfind v hv
      simp at this
    | some w =>
      have hw := List.mem_of_find?_eq_some hfind
      have hkey : key w = key v := by simpa using List.find?_some hfind
      rw [m.eq_of_key_eq hw hv hkey]

theorem find?_eq_none_iff : m.find? k = none ↔ k ∉ m := by
  simp [find?, mem_def, List.find?_eq_none]

theorem mem_iff_find? : k ∈ m ↔ ∃ v, m.find? k = some v := by
  rw [mem_def]
  exact exists_congr fun v => find?_eq_some_iff.symm

theorem find?_of_perm (m : KeyedMap key) (hperm : l.Perm m.entries) (k : K) :
    (l.find? fun v => decide (key v = k)) = m.find? k := by
  have hnodup : (l.map key).Nodup := (hperm.map key).nodup_iff.mpr m.nodup
  ext v
  calc (l.find? fun v => decide (key v = k)) = some v
      ↔ v ∈ l ∧ key v = k := find?_eq_some_iff (m := ⟨l, hnodup⟩)
    _ ↔ v ∈ m.entries ∧ key v = k := and_congr_left fun _ => hperm.mem_iff
    _ ↔ m.find? k = some v := find?_eq_some_iff.symm

/-- Insert an entry unless its key is already taken. -/
def insert (m : KeyedMap key) (v : V) : KeyedMap key :=
  if h : key v ∈ m then m
  else ⟨v :: m.entries, List.nodup_cons.mpr ⟨h, m.nodup⟩⟩

theorem mem_entries_insert : w ∈ (m.insert v).entries ↔ w ∈ m.entries ∨ (w = v ∧ key v ∉ m) := by
  unfold insert
  split
  · rename_i h
    simp [h]
  · rename_i h
    simp [h, or_comm]

@[simp] theorem mem_insert {m : KeyedMap key} {v : V} {k : K} :
    k ∈ m.insert v ↔ k ∈ m ∨ k = key v := by
  by_cases hv : key v ∈ m
  · have : m.insert v = m := by simp [insert, hv]
    rw [this]
    constructor
    · exact Or.inl
    · rintro (h | rfl)
      · exact h
      · exact hv
  · simp only [mem_def, mem_entries_insert]
    constructor
    · rintro ⟨w, hw | ⟨rfl, -⟩, rfl⟩
      · exact Or.inl ⟨w, hw, rfl⟩
      · exact Or.inr rfl
    · rintro (⟨w, hw, rfl⟩ | rfl)
      · exact ⟨w, Or.inl hw, rfl⟩
      · exact ⟨v, Or.inr ⟨rfl, fun h => hv (mem_def.mpr h)⟩, rfl⟩

theorem find?_insert (m : KeyedMap key) (v : V) (k : K) : (m.insert v).find? k =
    (m.find? k).or (if key v = k then some v else none) := by
  by_cases hv : key v ∈ m
  · have hsame : m.insert v = m := by simp [insert, hv]
    rw [hsame]
    by_cases hk : key v = k
    · obtain ⟨w, hw⟩ := mem_iff_find?.mp (hk ▸ hv)
      simp [hw]
    · simp [hk]
  · have hcons : (m.insert v).entries = v :: m.entries := by simp [insert, hv]
    unfold find?
    rw [hcons, List.find?_cons]
    by_cases hk : key v = k
    · have hnone : m.find? k = none := find?_eq_none_iff.mpr (hk ▸ hv)
      unfold find? at hnone
      simp [hk, hnone]
    · simp [hk]

/-- Remove the entry under a key. -/
def erase (m : KeyedMap key) (k : K) : KeyedMap key := m.filter fun v => key v ≠ k

@[simp] theorem mem_erase {m : KeyedMap key} {k l : K} : l ∈ m.erase k ↔ l ∈ m ∧ l ≠ k := by
  simp only [mem_def, erase, entries_filter, List.mem_filter, decide_eq_true_eq]
  constructor
  · rintro ⟨v, ⟨hv, hne⟩, rfl⟩
    exact ⟨⟨v, hv, rfl⟩, hne⟩
  · rintro ⟨⟨v, hv, rfl⟩, hne⟩
    exact ⟨v, ⟨hv, hne⟩, rfl⟩

theorem find?_erase (m : KeyedMap key) (k l : K) :
    (m.erase k).find? l = if l = k then none else m.find? l := by
  split_ifs with hl
  · exact find?_eq_none_iff.mpr fun hmem => (mem_erase.mp hmem).2 hl
  · unfold find? erase
    rw [entries_filter, List.find?_filter]
    congr 1
    funext v
    by_cases hv : key v = l
    · simp [hv, hl]
    · simp [hv]

theorem size_erase (m : KeyedMap key) (hk : k ∈ m) : (m.erase k).size + 1 = m.size := by
  obtain ⟨v, hv, rfl⟩ := mem_def.mp hk
  have hone : m.entries.countP (fun w => decide (key w = key v)) = 1 := by
    have hcount := List.nodup_iff_count_eq_one.mp m.nodup (key v) (List.mem_map_of_mem hv)
    rw [List.count, List.countP_map] at hcount
    rw [← hcount]
    refine List.countP_congr fun w _ => ?_
    simp
  have hlen := List.length_eq_countP_add_countP (fun w => decide (key w = key v)) (l := m.entries)
  unfold size erase
  rw [entries_filter, ← List.countP_eq_length_filter, hlen, hone, Nat.add_comm]
  congr 1
  refine List.countP_congr fun w _ => ?_
  simp

theorem size_insert (m : KeyedMap key) (hv : key v ∉ m) : (m.insert v).size = m.size + 1 := by
  unfold insert
  rw [dif_neg hv]
  rfl

theorem find?_map (m : KeyedMap key) (g : V → V) (hg : ∀ v, key (g v) = key v) (k : K) :
    (m.map g hg).find? k = (m.find? k).map g := by
  unfold find? map
  rw [List.find?_map]
  congr 2
  funext v
  exact decide_eq_decide.mpr (by rw [hg])

/-- Insert the entries of a list one after the other. -/
def insertAll (m : KeyedMap key) (l : List V) : KeyedMap key := l.foldl insert m

@[simp] theorem insertAll_nil (m : KeyedMap key) : m.insertAll [] = m := rfl

@[simp] theorem insertAll_cons (m : KeyedMap key) (v : V) (l : List V) :
    m.insertAll (v :: l) = (m.insert v).insertAll l := rfl

theorem find?_insertAll (m : KeyedMap key) (l : List V) (k : K) :
    (m.insertAll l).find? k = (m.find? k).or (l.find? fun v => decide (key v = k)) := by
  induction l generalizing m with
  | nil => simp
  | cons v l ih =>
    rw [insertAll_cons, ih, find?_insert, List.find?_cons]
    by_cases hk : key v = k <;> simp [hk]

@[simp] theorem mem_insertAll {m : KeyedMap key} {l : List V} {k : K} :
    k ∈ m.insertAll l ↔ k ∈ m ∨ ∃ v ∈ l, key v = k := by
  induction l generalizing m with
  | nil => simp
  | cons v l ih =>
    rw [insertAll_cons, ih, mem_insert]
    simp [or_assoc, eq_comm]

theorem find?_filterMap {g : V → Option V} (hg : ∀ v w, g v = some w → key w = key v)
    (hnodup : (l.map key).Nodup) (k : K) : ((l.filterMap g).find? fun v => decide (key v = k)) =
      (l.find? fun v => decide (key v = k)).bind g := by
  induction l with
  | nil => rfl
  | cons v l ih =>
    obtain ⟨hv, hl⟩ := List.nodup_cons.mp hnodup
    rw [List.filterMap_cons, List.find?_cons]
    by_cases hk : key v = k
    · -- the key does not occur in the rest, whatever happens to this entry
      have hrest : (l.find? fun v => decide (key v = k)) = none := by
        rw [List.find?_eq_none]
        intro w hw hwk
        exact hv (List.mem_map.mpr ⟨w, hw, by simp at hwk; rw [hwk, hk]⟩)
      cases hgv : g v with
      | none => simp [ih hl, hrest, hk, hgv]
      | some w => simp [hg v w hgv, hk, hgv]
    · cases hgv : g v with
      | none => simp [ih hl, hk]
      | some w => simp [hg v w hgv, hk, ih hl]

end KeyedMap

end McfKv
