import Mathlib.Tactic
import Mathlib.Algebra.BigOperators.Group.List.Basic

/-!
# Ordered maps

A map with ordered keys, as the list of its entries in key order. The order is a field of the type,
so that a map out of order cannot be built. The operations are those of a search tree that is also
read by ranges of keys: insertion, removal, lookup, the first entry, and the entries up to, below
or between given keys.

Proofs about a map reason about which entries it has (`mem_insert`, `mem_erase`, `get?_eq_some`,
`first?_eq_some`, `getLast?_upTo`), and about sums over them (`total_insert`, `total_erase`), never
about the list.
-/

universe u v

/-- A map from ordered keys, its entries strictly increasing in key. -/
structure OrdMap (κ : Type u) (V : Type v) [LinearOrder κ] where
  /-- The entries, by key. -/
  entries : List (κ × V)
  /-- The keys strictly increase. -/
  sorted : entries.Pairwise fun a b => a.1 < b.1

namespace OrdMap

open List

variable {κ : Type u} {V : Type v} [LinearOrder κ]

instance [DecidableEq V] : DecidableEq (OrdMap κ V) := fun m n =>
  decidable_of_iff (m.entries = n.entries) (by cases m; cases n; simp)

instance : Membership (κ × V) (OrdMap κ V) := ⟨fun m e => e ∈ m.entries⟩

variable {m : OrdMap κ V} {k : κ} {e : κ × V} {v : V}

theorem mem_def : e ∈ m ↔ e ∈ m.entries := Iff.rfl

/-- The map with no entries. -/
def empty : OrdMap κ V := ⟨[], List.Pairwise.nil⟩

instance : Inhabited (OrdMap κ V) := ⟨empty⟩

/-- The number of entries. -/
def size (m : OrdMap κ V) : ℕ := m.entries.length

/-- The value at a key. -/
def get? (m : OrdMap κ V) (k : κ) : Option V :=
  (m.entries.find? fun e => e.1 = k).map Prod.snd

/-- The entry with the least key. -/
def first? (m : OrdMap κ V) : Option (κ × V) := m.entries.head?

/-- The entries with keys up to `k`, in order. -/
def upTo (m : OrdMap κ V) (k : κ) : List (κ × V) := m.entries.filter fun e => e.1 ≤ k

/-- The entries with keys below `k`, in order. -/
def below (m : OrdMap κ V) (k : κ) : List (κ × V) := m.entries.filter fun e => e.1 < k

/-- The entries with keys from `a` up to but excluding `b`, in order. -/
def between (m : OrdMap κ V) (a b : κ) : List (κ × V) :=
  m.entries.filter fun e => a ≤ e.1 ∧ e.1 < b

/-- Add an entry, replacing the one with its key. -/
def insert (m : OrdMap κ V) (k : κ) (v : V) : OrdMap κ V where
  entries := m.entries.filter (fun e => e.1 < k) ++ (k, v) :: m.entries.filter fun e => k < e.1
  sorted := by
    refine List.pairwise_append.mpr ⟨m.sorted.filter _, ?_, ?_⟩
    · refine List.pairwise_cons.mpr ⟨fun e he => ?_, m.sorted.filter _⟩
      simpa using (List.mem_filter.mp he).2
    · intro a ha b hb
      have hak : a.1 < k := by simpa using (List.mem_filter.mp ha).2
      rcases List.mem_cons.mp hb with rfl | hb
      · exact hak
      · exact hak.trans (by simpa using (List.mem_filter.mp hb).2)

/-- Remove the entry at a key. -/
def erase (m : OrdMap κ V) (k : κ) : OrdMap κ V where
  entries := m.entries.filter fun e => e.1 ≠ k
  sorted := m.sorted.filter _

/-! ## Which entries a map has -/

@[simp]
theorem not_mem_empty (e : κ × V) : e ∉ (empty : OrdMap κ V) := not_mem_nil

theorem mem_insert : e ∈ m.insert k v ↔ e = (k, v) ∨ e ∈ m ∧ e.1 ≠ k := by
  simp only [mem_def, insert, mem_append, mem_cons, mem_filter, decide_eq_true_eq]
  constructor
  · rintro (⟨he, hlt⟩ | rfl | ⟨he, hlt⟩)
    · exact .inr ⟨he, hlt.ne⟩
    · exact .inl rfl
    · exact .inr ⟨he, hlt.ne'⟩
  · rintro (rfl | ⟨he, hne⟩)
    · exact .inr (.inl rfl)
    · rcases lt_or_gt_of_ne hne with hlt | hlt
      · exact .inl ⟨he, hlt⟩
      · exact .inr (.inr ⟨he, hlt⟩)

theorem mem_erase : e ∈ m.erase k ↔ e ∈ m ∧ e.1 ≠ k := by
  simp [mem_def, erase]

/-- Two entries with one key are the same entry. -/
theorem eq_of_mem {e' : κ × V} (h : e ∈ m) (h' : e' ∈ m) (hk : e.1 = e'.1) : e = e' := by
  obtain ⟨l, hs⟩ := m
  induction l with
  | nil => cases h
  | cons a l ih =>
    obtain ⟨ha, hl⟩ := pairwise_cons.mp hs
    rcases mem_cons.mp h with he | he
    · rcases mem_cons.mp h' with he' | he'
      · rw [he, he']
      · exact absurd hk (by rw [he]; exact (ha e' he').ne)
    · rcases mem_cons.mp h' with he' | he'
      · exact absurd hk (by rw [he']; exact (ha e he).ne')
      · exact ih hl he he'

theorem nodup_of_sorted {l : List (κ × V)} (h : l.Pairwise fun a b => a.1 < b.1) : l.Nodup :=
  h.imp fun hlt heq => hlt.ne (congrArg Prod.fst heq)

/-- Lists in key order are known by their entries. -/
theorem eq_of_sorted {l l' : List (κ × V)} (hl : l.Pairwise fun a b => a.1 < b.1)
    (hl' : l'.Pairwise fun a b => a.1 < b.1) (hmem : ∀ e, e ∈ l ↔ e ∈ l') : l = l' :=
  ((perm_ext_iff_of_nodup (nodup_of_sorted hl) (nodup_of_sorted hl')).mpr hmem).eq_of_pairwise
    (fun _ _ _ _ hab hba => absurd (hab.trans hba) (lt_irrefl _)) hl hl'

theorem get?_eq_some : m.get? k = some v ↔ (k, v) ∈ m := by
  unfold get?
  constructor
  · intro h
    obtain ⟨e, he, rfl⟩ := Option.map_eq_some_iff.mp h
    have hk : e.1 = k := by simpa using find?_some he
    have hmem := mem_of_find?_eq_some he
    subst hk
    exact hmem
  · intro h
    cases hf : m.entries.find? fun e => e.1 = k with
    | none =>
      have := find?_eq_none.mp hf (k, v) h
      simp at this
    | some e =>
      have hk : e.1 = k := by simpa using find?_some hf
      have := eq_of_mem (mem_of_find?_eq_some hf) h hk
      simp [this]

theorem get?_eq_none : m.get? k = none ↔ ∀ v, (k, v) ∉ m := by
  rw [Option.eq_none_iff_forall_ne_some]
  exact forall_congr' fun v => not_congr get?_eq_some

/-- The first entry is an entry, and its key is the least. -/
theorem first?_eq_some (h : m.first? = some e) : e ∈ m ∧ ∀ e' ∈ m, e.1 ≤ e'.1 := by
  obtain ⟨l, hs⟩ := m
  cases l with
  | nil => simp [first?] at h
  | cons a l =>
    obtain rfl : a = e := by simpa [first?] using h
    refine ⟨mem_cons_self, fun e' he' => ?_⟩
    rcases mem_cons.mp he' with rfl | he'
    · exact le_rfl
    · exact ((pairwise_cons.mp hs).1 e' he').le

theorem first?_eq_none : m.first? = none ↔ m.size = 0 := by
  simp [first?, size]

theorem size_pos (h : e ∈ m) : 0 < m.size := length_pos_of_mem h

theorem mem_upTo : e ∈ m.upTo k ↔ e ∈ m ∧ e.1 ≤ k := by
  simp [upTo, mem_def]

theorem mem_below : e ∈ m.below k ↔ e ∈ m ∧ e.1 < k := by
  simp [below, mem_def]

theorem mem_between {a b : κ} : e ∈ m.between a b ↔ e ∈ m ∧ a ≤ e.1 ∧ e.1 < b := by
  simp [between, mem_def]

/-- The last element of a list in key order has the greatest key. -/
theorem getLast?_of_sorted {l : List (κ × V)} (hs : l.Pairwise fun a b => a.1 < b.1)
    (h : l.getLast? = some e) : e ∈ l ∧ ∀ e' ∈ l, e'.1 ≤ e.1 := by
  obtain ⟨l', rfl⟩ := getLast?_eq_some_iff.mp h
  refine ⟨by simp, fun e' he' => ?_⟩
  rcases mem_append.mp he' with he' | he'
  · exact ((pairwise_append.mp hs).2.2 e' he' e (by simp)).le
  · rw [mem_singleton.mp he']

/-- The last entry up to a key is the entry with the greatest key that is not past it. -/
theorem getLast?_upTo (h : (m.upTo k).getLast? = some e) :
    e ∈ m ∧ e.1 ≤ k ∧ ∀ e' ∈ m, e'.1 ≤ k → e'.1 ≤ e.1 := by
  obtain ⟨hmem, hmax⟩ := getLast?_of_sorted (m.sorted.filter _) h
  obtain ⟨hm, hk⟩ := mem_upTo.mp hmem
  exact ⟨hm, hk, fun e' he' hk' => hmax e' (mem_upTo.mpr ⟨he', hk'⟩)⟩

/-- The last entry below a key is the entry with the greatest key below it. -/
theorem getLast?_below (h : (m.below k).getLast? = some e) :
    e ∈ m ∧ e.1 < k ∧ ∀ e' ∈ m, e'.1 < k → e'.1 ≤ e.1 := by
  obtain ⟨hmem, hmax⟩ := getLast?_of_sorted (m.sorted.filter _) h
  obtain ⟨hm, hk⟩ := mem_below.mp hmem
  exact ⟨hm, hk, fun e' he' hk' => hmax e' (mem_below.mpr ⟨he', hk'⟩)⟩

theorem getLast?_upTo_eq_none : (m.upTo k).getLast? = none ↔ ∀ e ∈ m, k < e.1 := by
  rw [getLast?_eq_none_iff, eq_nil_iff_forall_not_mem]
  simp [mem_upTo]

theorem getLast?_below_eq_none : (m.below k).getLast? = none ↔ ∀ e ∈ m, k ≤ e.1 := by
  rw [getLast?_eq_none_iff, eq_nil_iff_forall_not_mem]
  simp [mem_below]

/-! ## Sums over the entries -/

/-- The sum of `f` over the values. -/
def total (m : OrdMap κ V) (f : V → ℕ) : ℕ := (m.entries.map fun e => f e.2).sum

@[simp]
theorem total_empty (f : V → ℕ) : (empty : OrdMap κ V).total f = 0 := rfl

@[simp]
theorem size_empty : (empty : OrdMap κ V).size = 0 := rfl

/-- An entry in front of those with other keys. -/
theorem perm_cons_erase {l : List (κ × V)} (hl : l.Nodup)
    (h : ∀ e, e ∈ l ↔ e = (k, v) ∨ e ∈ m ∧ e.1 ≠ k) : l.Perm ((k, v) :: (m.erase k).entries) := by
  have hk : (k, v) ∉ (m.erase k).entries := fun hmem => (mem_erase.mp hmem).2 rfl
  rw [perm_ext_iff_of_nodup hl (nodup_cons.mpr ⟨hk, nodup_of_sorted (m.erase k).sorted⟩)]
  intro e
  rw [mem_cons, ← mem_def, mem_erase, h]

theorem insert_perm (m : OrdMap κ V) (k : κ) (v : V) :
    (m.insert k v).entries.Perm ((k, v) :: (m.erase k).entries) :=
  perm_cons_erase (nodup_of_sorted (m.insert k v).sorted) fun _ => mem_insert

theorem erase_perm (h : (k, v) ∈ m) : m.entries.Perm ((k, v) :: (m.erase k).entries) := by
  refine perm_cons_erase (nodup_of_sorted m.sorted) fun e => ⟨fun he => ?_, ?_⟩
  · exact or_iff_not_imp_right.mpr fun hne => eq_of_mem he h (by simpa using fun hk => hne ⟨he, hk⟩)
  · rintro (rfl | ⟨he, -⟩)
    · exact h
    · exact he

/-- Inserting at a key adds the value's share to the sum over the other entries. -/
theorem total_insert (m : OrdMap κ V) (k : κ) (v : V) (f : V → ℕ) :
    (m.insert k v).total f = f v + (m.erase k).total f := by
  unfold total
  rw [((m.insert_perm k v).map fun e => f e.2).sum_eq]
  simp

/-- Removing an entry takes its share away from the sum. -/
theorem total_erase (h : (k, v) ∈ m) (f : V → ℕ) : m.total f = f v + (m.erase k).total f := by
  unfold total
  rw [((erase_perm h).map fun e => f e.2).sum_eq]
  simp

/-- Removing at a key that is not there changes nothing. -/
theorem erase_of_not_mem (h : ∀ v, (k, v) ∉ m) : m.erase k = m := by
  obtain ⟨l, hs⟩ := m
  simp only [erase, OrdMap.mk.injEq, filter_eq_self]
  rintro ⟨k', v⟩ he
  simp only [decide_eq_true_eq]
  rintro rfl
  exact h v he

theorem size_erase (h : (k, v) ∈ m) : m.size = (m.erase k).size + 1 := by
  simp [size, (erase_perm h).length_eq]

theorem size_erase_le (m : OrdMap κ V) (k : κ) : (m.erase k).size ≤ m.size :=
  length_filter_le _ _

/-- A map with no other entries is not larger. -/
theorem size_le_of_subset {m' : OrdMap κ V} (h : ∀ e ∈ m', e ∈ m) : m'.size ≤ m.size :=
  (subperm_of_subset (nodup_of_sorted m'.sorted) h).length_le

end OrdMap
