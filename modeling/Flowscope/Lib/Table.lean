import Mathlib.Tactic
import Mathlib.Data.List.AList

/-!
# Tables

A table from keys to values is Mathlib's `AList`: the list of its entries, no two with one key.
Inserting puts the entry in front, so that the list is also the order of last insertion. This file
adds the operations of a hash map that Mathlib lacks: keeping the entries that pass a test, changing
every value, keeping the first entries, and the number of entries.
-/

universe u v

/-- A map with finitely many keys. -/
abbrev Table (κ : Type u) (V : Type v) : Type (max u v) := AList fun _ : κ => V

namespace Table

open List

variable {κ : Type u} {V : Type v}

/-- The number of entries. -/
def size (t : Table κ V) : ℕ := t.entries.length

/-- The entries that pass a test. -/
def retain (t : Table κ V) (p : κ → V → Bool) : Table κ V where
  entries := t.entries.filter fun e => p e.1 e.2
  nodupKeys := t.nodupKeys.sublist List.filter_sublist

/-- The entries, in order. -/
def toList (t : Table κ V) : List (κ × V) := t.entries.map fun e => (e.1, e.2)

/-- The first `n` entries. -/
def take (t : Table κ V) (n : ℕ) : Table κ V where
  entries := t.entries.take n
  nodupKeys := t.nodupKeys.sublist (List.take_sublist _ _)

/-- Change every value. -/
def mapVals {W : Type v} (t : Table κ V) (f : κ → V → W) : Table κ W where
  entries := t.entries.map fun e => ⟨e.1, f e.1 e.2⟩
  nodupKeys := by
    rw [List.NodupKeys, List.keys, List.map_map]
    exact t.nodupKeys

/-- Changing values keeps the number of entries. -/
theorem size_mapVals {W : Type v} (t : Table κ V) (f : κ → V → W) : (t.mapVals f).size = t.size :=
  length_map _

/-- Taking as many as there are. -/
theorem take_of_size_le {t : Table κ V} {n : ℕ} (h : t.size ≤ n) : t.take n = t := by
  apply AList.ext
  exact take_of_length_le h

/-- There are as many keys. -/
theorem size_eq (t : Table κ V) : t.size = t.keys.length := by
  rw [size, AList.keys, keys, length_map]

/-- How many entries are left. -/
theorem size_take (t : Table κ V) (n : ℕ) : (t.take n).size = min n t.size := length_take

variable [DecidableEq κ] {t : Table κ V} {k k' : κ} {v : V} {p : κ → V → Bool}

/-- What is found is an entry. -/
theorem lookup_eq_some : t.lookup k = some v ↔ ⟨k, v⟩ ∈ t.entries := AList.mem_lookup_iff

/-- What is found among what was kept. -/
theorem lookup_retain : (t.retain p).lookup k = (t.lookup k).filter (p k) := by
  apply Option.ext
  intro v
  rw [lookup_eq_some, Option.filter_eq_some_iff, lookup_eq_some]
  exact mem_filter

/-- The entries as a list. -/
theorem mem_toList : (k, v) ∈ t.toList ↔ t.lookup k = some v := by
  simp only [toList, mem_map, lookup_eq_some]
  constructor
  · rintro ⟨e, he, heq⟩
    obtain ⟨rfl, rfl⟩ := Prod.mk.inj heq
    exact he
  · intro he
    exact ⟨⟨k, v⟩, he, rfl⟩

/-- A key that is there is found. -/
theorem mem_iff_lookup : k ∈ t ↔ ∃ v, t.lookup k = some v := by
  rw [← AList.lookup_isSome, Option.isSome_iff_exists]

/-- What is found after an insertion. -/
theorem lookup_insert_eq : (t.insert k v).lookup k' = if k' = k then some v else t.lookup k' := by
  by_cases h : k' = k
  · rw [h, if_pos rfl, AList.lookup_insert]
  · rw [if_neg h, AList.lookup_insert_ne h]

/-- What is found after a removal. -/
theorem lookup_erase_eq : (t.erase k).lookup k' = if k' = k then none else t.lookup k' := by
  by_cases h : k' = k
  · rw [h, if_pos rfl, AList.lookup_erase]
  · rw [if_neg h, AList.lookup_erase_ne h]

/-- A key that was there is one entry less. -/
theorem size_erase_of_mem (h : k ∈ t) : size (t.erase k) + 1 = size t := by
  have hky : k ∈ t.keys := AList.mem_keys.mp h
  have hpos : 0 < t.keys.length := length_pos_of_mem hky
  rw [size_eq, size_eq, AList.keys_erase, length_erase_of_mem hky]
  omega

/-- Removing what is not there. -/
theorem erase_of_not_mem (h : k ∉ t) : t.erase k = t := by
  apply AList.ext
  exact kerase_of_notMem_keys h

/-- A key that was there is replaced. -/
theorem size_insert_of_mem (h : k ∈ t) : size (t.insert k v) = size t := by
  have hky : k ∈ t.keys := AList.mem_keys.mp h
  have hpos : 0 < t.keys.length := length_pos_of_mem hky
  rw [size_eq, size_eq, AList.keys_insert, length_cons, length_erase_of_mem hky]
  omega

/-- A new key is one entry more. -/
theorem size_insert_of_not_mem (h : k ∉ t) : size (t.insert k v) = size t + 1 := by
  have hky : k ∉ t.keys := h
  rw [size_eq, size_eq, AList.keys_insert, List.length_cons, List.erase_of_not_mem hky]

/-- What is found where values were changed. -/
theorem lookup_mapVals {W : Type v} (f : κ → V → W) :
    (t.mapVals f).lookup k = (t.lookup k).map (f k) := by
  apply Option.ext
  intro w
  simp only [lookup_eq_some, Option.map_eq_some_iff, mapVals, mem_map]
  constructor
  · rintro ⟨e, he, heq⟩
    obtain ⟨rfl, hw⟩ := Sigma.mk.inj heq
    exact ⟨e.2, he, eq_of_heq hw⟩
  · rintro ⟨v, hv, rfl⟩
    exact ⟨⟨k, v⟩, hv, rfl⟩

/-- Give a key a value. A key that there is keeps its place. -/
def put (t : Table κ V) (k : κ) (v : V) : Table κ V :=
  if k ∈ t then t.mapVals fun k' v' => if k' = k then v else v' else t.insert k v

/-- What is found after a key was set. -/
theorem lookup_put : (t.put k v).lookup k' = if k' = k then some v else t.lookup k' := by
  unfold put
  split_ifs with h hk hk
  · rw [lookup_mapVals, hk]
    obtain ⟨w, hw⟩ := mem_iff_lookup.mp h
    simp [hw]
  · rw [lookup_mapVals]
    simp [hk]
  · rw [lookup_insert_eq, if_pos hk]
  · rw [lookup_insert_eq, if_neg hk]

omit [DecidableEq κ] in
/-- Two changes are one. -/
theorem mapVals_mapVals {W X : Type v} (t : Table κ V) (f : κ → V → W) (g : κ → W → X) :
    (t.mapVals f).mapVals g = t.mapVals fun k v => g k (f k v) := by
  simp [mapVals]

/-- Only the last value counts. -/
theorem put_put (t : Table κ V) (k : κ) (v w : V) : (t.put k v).put k w = t.put k w := by
  have hmem : k ∈ t.put k v := mem_iff_lookup.mpr ⟨v, by rw [lookup_put, if_pos rfl]⟩
  rw [put, if_pos hmem]
  unfold put
  split_ifs with h
  · rw [mapVals_mapVals]
    congr 1
    funext k' v'
    by_cases hk : k' = k <;> simp [hk]
  · -- the entry that was inserted comes first, and no other has its key
    have hor : ∀ e ∈ t.entries, e.1 ≠ k := fun e he heq =>
      h (AList.mem_keys.mpr (heq ▸ mem_map_of_mem he))
    have hmap : (t.entries.map fun e => ⟨e.1, if e.1 = k then w else e.2⟩) = t.entries := by
      calc
        _ = t.entries.map id := map_congr_left fun e he => by rw [if_neg (hor e he), id]
        _ = t.entries := map_id _
    apply AList.ext
    have hen : ∀ t' : Table κ V, (t'.mapVals fun k' v' => if k' = k then w else v').entries =
        t'.entries.map fun e => ⟨e.1, if e.1 = k then w else e.2⟩ := fun _ => rfl
    rw [hen, AList.entries_insert_of_notMem h, AList.entries_insert_of_notMem h,
      map_cons, if_pos rfl, hmap]

/-- The first entries are entries. -/
theorem lookup_of_lookup_take {n : ℕ} (h : (t.take n).lookup k = some v) : t.lookup k = some v := by
  rw [lookup_eq_some] at h ⊢
  exact mem_of_mem_take h

/-! ## Sums over the entries -/

omit [DecidableEq κ] in
/-- The sum of `w` over the entries. -/
def total (t : Table κ V) (w : κ → V → ℕ) : ℕ := (t.entries.map fun e => w e.1 e.2).sum

/-- A table with a key, cut at the key. -/
theorem exists_split (h : t.lookup k = some v) : ∃ l1 l2, t.entries = l1 ++ ⟨k, v⟩ :: l2 ∧
    (t.erase k).entries = l1 ++ l2 ∧ ∀ e ∈ l1 ++ l2, e.1 ≠ k := by
  have hkey : k ∈ t.entries.keys := AList.mem_keys.mp (mem_iff_lookup.mpr ⟨v, h⟩)
  obtain ⟨v', l1, l2, -, hsl, her⟩ := exists_of_kerase hkey
  have hv : v = v' := by
    have hmem : (⟨k, v'⟩ : Sigma fun _ : κ => V) ∈ t.entries := by simp [hsl]
    exact t.nodupKeys.eq_of_mk_mem (lookup_eq_some.mp h) hmem
  refine ⟨l1, l2, hv ▸ hsl, her, fun e he heq => ?_⟩
  have hnot : k ∉ t.erase k := fun hk => (AList.mem_erase.mp hk).1 rfl
  apply hnot
  have hen : (t.erase k).entries = l1 ++ l2 := her
  rw [AList.mem_keys, AList.keys, hen, ← heq]
  exact mem_map_of_mem he

variable (w : κ → V → ℕ)

/-- A removed entry takes its weight along. -/
theorem total_erase (h : t.lookup k = some v) : total (t.erase k) w + w k v = t.total w := by
  obtain ⟨l1, l2, hsl, her, -⟩ := exists_split h
  rw [total, total, hsl, her]
  simp
  omega

/-- No entry weighs more than all. -/
theorem le_total (h : t.lookup k = some v) : w k v ≤ t.total w := by
  have := total_erase w h
  omega

/-- The weight of a key that was there is exchanged. -/
theorem total_put_of_some {old : V} (h : t.lookup k = some old) :
    (t.put k v).total w + w k old = t.total w + w k v := by
  obtain ⟨l1, l2, hsl, -, hne⟩ := exists_split h
  have hmap : ∀ l : List (Sigma fun _ : κ => V), (∀ e ∈ l, e.1 ≠ k) →
      (l.map fun e => w e.1 (if e.1 = k then v else e.2)) = l.map fun e => w e.1 e.2 := by
    intro l hl
    apply map_congr_left
    intro e he
    rw [if_neg (hl e he)]
  have hput : (t.put k v).total w =
      (t.entries.map fun e => w e.1 (if e.1 = k then v else e.2)).sum := by
    rw [put, if_pos (mem_iff_lookup.mpr ⟨old, h⟩), total, mapVals]
    simp [Function.comp_def]
  have h₁ := hmap l1 fun e he => hne e (by simp [he])
  have h₂ := hmap l2 fun e he => hne e (by simp [he])
  rw [hput, total, hsl]
  simp only [map_append, map_cons, h₁, h₂, sum_append, sum_cons, if_true]
  omega

/-- The weight of a new key is added. -/
theorem total_put_of_none (h : t.lookup k = none) : (t.put k v).total w = t.total w + w k v := by
  have hnot : k ∉ t := by
    rw [mem_iff_lookup, h]
    simp
  have hen : (t.insert k v).entries = ⟨k, v⟩ :: t.entries :=
    AList.entries_insert_of_notMem hnot
  rw [put, if_neg hnot, total, hen, total]
  simp
  omega

/-- Heavier entries weigh more. -/
theorem total_le_total {w w' : κ → V → ℕ} (h : ∀ k v, t.lookup k = some v → w k v ≤ w' k v) :
    t.total w ≤ t.total w' := by
  apply sum_le_sum
  intro e he
  exact h e.1 e.2 (lookup_eq_some.mpr he)

end Table
