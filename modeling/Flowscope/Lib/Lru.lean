import Flowscope.Lib.Table

/-!
# A cache that drops what was used longest ago

`LruCache` is a table with a capacity, its entries in the order of their last use. Pushing a new key
into a full cache drops the entry that was used longest ago. That there is room for at least one
entry, and that there are no more entries than the capacity, are part of the type.

It stands for `LruCache` of the third-party crate `lru`, by what the documentation of that crate says
of the methods that are used. Nothing here is translated from the crate. What most proofs need of it are
the laws `Adds`, `Drops` and `Sets`: what a lookup gives after a push, a removal or a write, and what
becomes of the number of entries. Any cache with these laws would serve there; the order of the entries
matters only for which of them a push into a full cache drops (`Front`).
-/

universe u v

/-- A table that keeps the entries that were used last. -/
structure LruCache (κ : Type u) (V : Type v) where
  /-- How many entries there may be. -/
  cap : ℕ
  /-- The entries, those used last in front. -/
  entries : Table κ V
  cap_pos : 0 < cap
  size_le : entries.size ≤ cap

namespace LruCache

open Table

variable {κ : Type u} {V : Type v}

def new (cap : ℕ) (h : 0 < cap) : LruCache κ V := ⟨cap, ∅, h, Nat.zero_le _⟩

/-- The number of entries. -/
def len (c : LruCache κ V) : ℕ := c.entries.size

/-- The entries, those used last in front. -/
def iter (c : LruCache κ V) : List (κ × V) := c.entries.toList

/-- Change the capacity, and drop the entries used longest ago that are too many. -/
def resize (c : LruCache κ V) (cap : ℕ) (h : 0 < cap) : LruCache κ V :=
  ⟨cap, c.entries.take cap, h, by rw [Table.size_take]; exact min_le_left _ _⟩

theorem len_le (c : LruCache κ V) : c.len ≤ c.cap := c.size_le

variable {c'' : LruCache κ V} {w : V} {cap : ℕ}

/-- Nothing is dropped where there is room. -/
theorem resize_of_len_le {c : LruCache κ V} {h : 0 < cap} (hle : c.len ≤ cap) :
    (c.resize cap h).entries = c.entries :=
  take_of_size_le hle

variable [DecidableEq κ]

/-- The value of a key, without using it. -/
def peek (c : LruCache κ V) (k : κ) : Option V := c.entries.lookup k

def contains (c : LruCache κ V) (k : κ) : Bool := (c.peek k).isSome

/-- Change the value of a key without using it. -/
def peekMut (c : LruCache κ V) (k : κ) (f : V → V) : LruCache κ V :=
  ⟨c.cap, c.entries.mapVals fun k' v => if k' = k then f v else v, c.cap_pos, by
    rw [Table.size_mapVals]; exact c.size_le⟩

/-- Use a key that there is, and give it a new value. -/
def set (c : LruCache κ V) (k : κ) (v : V) : LruCache κ V :=
  if h : k ∈ c.entries then
    ⟨c.cap, c.entries.insert k v, c.cap_pos, by
      rw [Table.size_insert_of_mem h]; exact c.size_le⟩
  else c

/-- Remove a key. -/
def pop (c : LruCache κ V) (k : κ) : LruCache κ V :=
  ⟨c.cap, c.entries.erase k, c.cap_pos, by
    by_cases h : k ∈ c.entries
    · have := Table.size_erase_of_mem h
      have := c.size_le
      omega
    · rw [Table.erase_of_not_mem h]
      exact c.size_le⟩

/-- The entry used longest ago. -/
def last? (c : LruCache κ V) : Option (κ × V) := c.iter.getLast?

theorem peek_of_last? {c : LruCache κ V} {k : κ} {v : V} (h : c.last? = some (k, v)) :
    c.peek k = some v :=
  mem_toList.mp (List.mem_of_getLast? h)

/-- Dropping one entry makes room for a new one. -/
theorem size_swap_le {c : LruCache κ V} {k k' : κ} {v v' : V} (h : k ∉ c.entries)
    (h' : c.peek k' = some v') : size ((c.entries.erase k').insert k v) ≤ c.cap := by
  have hmem : k' ∈ c.entries := mem_iff_lookup.mpr ⟨v', h'⟩
  have hnot : k ∉ c.entries.erase k' := fun hk => h (AList.mem_erase.mp hk).2
  have hsz := size_erase_of_mem hmem
  have hle := c.size_le
  rw [size_insert_of_not_mem hnot]
  omega

/-- Insert or replace an entry, and use it. Also what was replaced, or dropped for want of room. -/
def push (c : LruCache κ V) (k : κ) (v : V) : LruCache κ V × Option (κ × V) :=
  if h : k ∈ c.entries then (c.set k v, (c.peek k).map fun old => (k, old))
  else if hroom : c.entries.size < c.cap then
    (⟨c.cap, c.entries.insert k v, c.cap_pos, by
      rw [Table.size_insert_of_not_mem h]; exact hroom⟩, none)
  else
    match hlast : c.last? with
    | some (k', v') =>
      (⟨c.cap, (c.entries.erase k').insert k v, c.cap_pos, size_swap_le h (peek_of_last? hlast)⟩,
        some (k', v'))
    -- a full cache is not empty
    | none => (c, none)

/-! ## What the operations change -/

variable {c c' : LruCache κ V} {k j : κ} {v : V}

/-- `c'` is `c` with one more key. -/
structure Adds (c : LruCache κ V) (k : κ) (v : V) (c' : LruCache κ V) : Prop where
  absent : c.peek k = none
  peek : ∀ j, c'.peek j = if j = k then some v else c.peek j
  len : c'.len = c.len + 1
  cap : c'.cap = c.cap

/-- `c'` is `c` without a key. -/
structure Drops (c : LruCache κ V) (k : κ) (v : V) (c' : LruCache κ V) : Prop where
  present : c.peek k = some v
  peek : ∀ j, c'.peek j = if j = k then none else c.peek j
  len : c'.len + 1 = c.len
  cap : c'.cap = c.cap

/-- `c'` is `c` with a new value for a key. -/
structure Sets (c : LruCache κ V) (k : κ) (v w : V) (c' : LruCache κ V) : Prop where
  present : c.peek k = some v
  peek : ∀ j, c'.peek j = if j = k then some w else c.peek j
  len : c'.len = c.len
  cap : c'.cap = c.cap

theorem contains_iff : c.contains k = true ↔ ∃ v, c.peek k = some v := Option.isSome_iff_exists

theorem contains_eq_false : c.contains k = false ↔ c.peek k = none := by
  rw [contains, Option.isSome_eq_false_iff, Option.isNone_iff_eq_none]

theorem mem_entries_iff : k ∈ c.entries ↔ ∃ v, c.peek k = some v := mem_iff_lookup

theorem mem_iter : (k, v) ∈ c.iter ↔ c.peek k = some v := mem_toList

theorem drops_pop (h : c.peek k = some v) : c.Drops k v (c.pop k) where
  present := h
  peek _ := lookup_erase_eq
  len := size_erase_of_mem (mem_entries_iff.mpr ⟨v, h⟩)
  cap := rfl

theorem sets_set (h : c.peek k = some v) : c.Sets k v w (c.set k w) := by
  have hmem : k ∈ c.entries := mem_entries_iff.mpr ⟨v, h⟩
  rw [set, dif_pos hmem]
  exact ⟨h, fun _ => lookup_insert_eq, size_insert_of_mem hmem, rfl⟩

/-- A key whose value was changed, and that is then dropped. -/
theorem Sets.drops (h : c.Sets k v w c') (h' : c'.Drops k w c'') : c.Drops k v c'' where
  present := h.present
  peek j := by
    rw [h'.peek, h.peek]
    split_ifs <;> rfl
  len := h'.len.trans h.len
  cap := h'.cap.trans h.cap

/-- A key whose value was changed twice. -/
theorem Sets.trans {x : V} (h : c.Sets k v w c') (h' : c'.Sets k w x c'') : c.Sets k v x c'' where
  present := h.present
  peek j := by
    rw [h'.peek, h.peek]
    split_ifs <;> rfl
  len := h'.len.trans h.len
  cap := h'.cap.trans h.cap

/-- What stays when the capacity changes was there. -/
theorem peek_of_peek_resize {h : 0 < cap} (hv : (c.resize cap h).peek k = some v) :
    c.peek k = some v :=
  lookup_of_lookup_take hv

/-- Pushing a key that is there changes its value. -/
theorem push_of_some (h : c.peek k = some v) : c.push k w = (c.set k w, some (k, v)) := by
  rw [push, dif_pos (mem_entries_iff.mpr ⟨v, h⟩), h, Option.map_some]

/-- Pushing a new key adds it, after the entry used longest ago was dropped where there was no
room. -/
theorem push_cases (h : c.peek k = none) (v : V) :
    ((c.push k v).2 = none ∧ c.Adds k v (c.push k v).1) ∨
      ∃ k' v', (c.push k v).2 = some (k', v') ∧ k' ≠ k ∧ c.peek k' = some v' ∧
        (c.pop k').Adds k v (c.push k v).1 := by
  have hnot : k ∉ c.entries := by
    rw [mem_entries_iff, h]
    simp
  rw [push, dif_neg hnot]
  by_cases hroom : c.entries.size < c.cap
  · rw [dif_pos hroom]
    left
    exact ⟨rfl, h, fun _ => lookup_insert_eq, size_insert_of_not_mem hnot, rfl⟩
  · rw [dif_neg hroom]
    split
    · rename_i k' v' hlast
      right
      have hk' : c.peek k' = some v' := peek_of_last? hlast
      have hne : k' ≠ k := by
        rintro rfl
        rw [h] at hk'
        exact absurd hk' (by simp)
      have hnt' : k ∉ c.entries.erase k' := fun hk => hnot (AList.mem_erase.mp hk).2
      refine ⟨k', v', rfl, hne, hk', ?_, fun _ => lookup_insert_eq,
        size_insert_of_not_mem hnt', rfl⟩
      rw [(drops_pop hk').peek, h, ite_self]
    · rename_i hlast
      have hnil : c.entries.entries = [] := by
        rw [last?, List.getLast?_eq_none_iff, iter, toList, List.map_eq_nil_iff] at hlast
        exact hlast
      have hzr : c.entries.size = 0 := by rw [size, hnil, List.length_nil]
      have hpos := c.cap_pos
      omega

/-- Pushing a new key where there is room drops nothing. -/
theorem adds_push (h : c.peek k = none) (hroom : c.len < c.cap) (v : V) :
    c.Adds k v (c.push k v).1 := by
  have hsz : c.entries.size < c.cap := hroom
  have hnot : k ∉ c.entries := by
    rw [mem_entries_iff, h]
    simp
  rw [push, dif_neg hnot, dif_pos hsz]
  exact ⟨h, fun _ => lookup_insert_eq, size_insert_of_not_mem hnot, rfl⟩

/-! ## What was used last -/

theorem cap_push (c : LruCache κ V) (k : κ) (v : V) : (c.push k v).1.cap = c.cap := by
  cases h : c.peek k with
  | some w =>
    rw [push_of_some h]
    exact (sets_set h).cap
  | none =>
    rcases push_cases h v with ⟨-, hadds⟩ | ⟨_, _, -, -, -, hadds⟩
    · exact hadds.cap
    · exact hadds.cap

/-- These keys were used after all others. -/
def Front (c : LruCache κ V) (used : Finset κ) : Prop :=
  ∃ done, done <+: c.entries.keys ∧ ∀ j, j ∈ done ↔ j ∈ used

omit [DecidableEq κ] in
theorem front_empty (c : LruCache κ V) : c.Front ∅ :=
  ⟨[], List.nil_prefix, fun j => by simp⟩

/-- What was used after all others is there. -/
theorem Front.peek {used : Finset κ} (h : c.Front used) (hj : j ∈ used) : ∃ v, c.peek j = some v := by
  obtain ⟨done, hdone, hused⟩ := h
  exact mem_entries_iff.mp (AList.mem_keys.mp (hdone.subset ((hused j).mpr hj)))

/-- Erasing a key keeps what is in front in front. -/
theorem erase_front {done l : List κ} (h : done <+: l) (j : κ) : done.erase j <+: l.erase j := by
  obtain ⟨rest, rfl⟩ := h
  by_cases hj : j ∈ done
  · rw [List.erase_append_left _ hj]
    exact List.prefix_append _ _
  · rw [List.erase_append_right _ hj, List.erase_of_not_mem hj]
    exact List.prefix_append _ _

omit [DecidableEq κ] in
/-- In a full cache, the entry that is dropped is not one of the keys used last, if there are fewer of
them than there is room for. -/
theorem last?_not_mem {done : List κ} (h : done <+: c.entries.keys) (hlen : done.length < c.entries.size)
    (hlast : c.last? = some (k, v)) : k ∉ done := by
  obtain ⟨rest, hkeys⟩ := h
  have hsize : (done ++ rest).length = c.entries.size := by
    rw [hkeys, AList.keys, List.keys, List.length_map]
    rfl
  have hrest : rest ≠ [] := by
    rintro rfl
    rw [List.append_nil] at hsize
    omega
  have hmem : k ∈ rest := by
    have hlast' : (done ++ rest).getLast? = some k := by
      have hkey := congrArg (Option.map Prod.fst) hlast
      rw [last?, iter, toList, List.getLast?_map, Option.map_map] at hkey
      rw [hkeys, AList.keys, List.keys, List.getLast?_map]
      exact hkey
    rw [List.getLast?_append_of_ne_nil _ hrest] at hlast'
    exact List.mem_of_getLast? hlast'
  have hnodup : (done ++ rest).Nodup := by
    rw [hkeys]
    exact c.entries.keys_nodup
  exact fun hd => List.disjoint_of_nodup_append hnodup hd hmem

/-- The keys that were used last stay when another one is used, if there is room for it with them. -/
theorem Front.push {used : Finset κ} (h : c.Front used) (hroom : (insert k used).card ≤ c.cap) (v : V) :
    (c.push k v).1.Front (insert k used) := by
  obtain ⟨done, hdone, hused⟩ := h
  have hnodup : done.Nodup := hdone.sublist.nodup c.entries.keys_nodup
  refine ⟨k :: done.erase k, ?_, fun j => ?_⟩
  · have hfront := erase_front hdone k
    rw [LruCache.push]
    split
    · next hmem =>
      rw [set, dif_pos hmem]
      rw [AList.keys_insert]
      exact List.cons_prefix_cons.mpr ⟨rfl, hfront⟩
    · next hnot =>
      have hk : k ∉ done := fun hk => hnot (AList.mem_keys.mp (hdone.subset hk))
      split
      · rw [AList.keys_insert]
        exact List.cons_prefix_cons.mpr ⟨rfl, hfront⟩
      · have hlen : done.length < c.entries.size := by
          have hcard : done.length = used.card := by
            rw [← List.toFinset_card_of_nodup hnodup]
            congr 1
            ext j
            rw [List.mem_toFinset, hused]
          have hk' : k ∉ used := fun hu => hk ((hused k).mpr hu)
          rw [Finset.card_insert_of_notMem hk'] at hroom
          omega
        split
        · next k' v' hlast =>
          have hdropped := last?_not_mem hdone hlen hlast
          rw [AList.keys_insert, AList.keys_erase]
          refine List.cons_prefix_cons.mpr ⟨rfl, erase_front ?_ k⟩
          have := erase_front hdone k'
          rwa [List.erase_of_not_mem hdropped] at this
        · next hlast =>
          -- a full cache is not empty
          rw [last?, List.getLast?_eq_none_iff, iter, toList, List.map_eq_nil_iff] at hlast
          have hzero : c.entries.size = 0 := by rw [size, hlast, List.length_nil]
          omega
  · rw [List.mem_cons, hnodup.mem_erase_iff, hused]
    by_cases hj : j = k
    · simp [hj]
    · simp [hj]

end LruCache
