import Flowscope.Lib.Table

/-!
# Merging tables

Two tables are merged entry by entry: a key that both have gets a value computed from its two values.
What a merged table has at a key depends only on what the two have there, so that the order of the
entries cannot be seen from the lookups. The set of keys of a table is a `Finset`, so that the keys of
several tables can be counted together.
-/

universe u v

namespace Table

open List

variable {κ : Type u} {V : Type v} [DecidableEq κ] {t t' : Table κ V} {k k' : κ} {v : V}
  {f : V → V → V}

/-- Add to the value of a key, or insert it. -/
def addWith (f : V → V → V) (t : Table κ V) (k : κ) (v : V) : Table κ V :=
  match t.lookup k with
  | some w => t.put k (f w v)
  | none => t.put k v

theorem lookup_addWith : (t.addWith f k v).lookup k' =
    if k' = k then Option.merge f (t.lookup k) (some v) else t.lookup k' := by
  unfold addWith
  cases h : t.lookup k with
  | none => exact lookup_put
  | some w => exact lookup_put

/-- Add every entry of `t'` to `t`. -/
def mergeWith (f : V → V → V) (t t' : Table κ V) : Table κ V :=
  t'.toList.foldl (fun t e => t.addWith f e.1 e.2) t

theorem lookup_mergeWith :
    (mergeWith f t t').lookup k = Option.merge f (t.lookup k) (t'.lookup k) := by
  have hfo : ∀ (l : List (Sigma fun _ : κ => V)), l.NodupKeys → ∀ t : Table κ V,
      ((l.map fun e => (e.1, e.2)).foldl (fun t e => t.addWith f e.1 e.2) t).lookup k =
        Option.merge f (t.lookup k) (l.dlookup k) := by
    intro l
    induction l with
    | nil =>
      intro _ t
      rw [dlookup_nil, Option.merge_none_right]
      rfl
    | cons e l ih =>
      intro hl t
      obtain ⟨hnot, hl⟩ := nodupKeys_cons.mp hl
      rw [map_cons, foldl_cons, ih hl, lookup_addWith]
      by_cases hk : k = e.1
      · subst hk
        rw [if_pos rfl, dlookup_cons_eq, dlookup_eq_none.mpr hnot, Option.merge_none_right]
      · rw [if_neg hk, dlookup_cons_ne _ _ hk]
  exact hfo t'.entries t'.nodupKeys t

theorem lookup_foldl_mergeWith {β : Type*} (g : β → Table κ V) (bs : List β) (t : Table κ V) (k : κ) :
    (bs.foldl (fun t b => t.mergeWith f (g b)) t).lookup k =
      (bs.map fun b => (g b).lookup k).foldl (Option.merge f) (t.lookup k) := by
  induction bs generalizing t with
  | nil => rfl
  | cons b bs ih => rw [foldl_cons, ih, lookup_mergeWith, map_cons, foldl_cons]

/-- Tables with the same lookups have the same entries, in some order. -/
theorem perm_of_lookup (h : ∀ k, t.lookup k = t'.lookup k) : t.entries.Perm t'.entries :=
  lookup_ext t.nodupKeys t'.nodupKeys fun k v => by
    have hk : t.entries.dlookup k = t'.entries.dlookup k := h k
    rw [hk]

theorem size_eq_of_lookup (h : ∀ k, t.lookup k = t'.lookup k) : t.size = t'.size :=
  (perm_of_lookup h).length_eq

theorem size_ne_zero (h : t.lookup k = some v) : t.size ≠ 0 := by
  rw [lookup_eq_some] at h
  exact (length_pos_of_mem h).ne'

/-! ## Sets of keys -/

def keySet (t : Table κ V) : Finset κ := t.keys.toFinset

theorem mem_keySet : k ∈ t.keySet ↔ k ∈ t := by
  rw [keySet, mem_toFinset, AList.mem_keys]

theorem card_keySet (t : Table κ V) : t.keySet.card = t.size := by
  rw [keySet, toFinset_card_of_nodup t.keys_nodup, size_eq]

theorem keySet_eq_of_lookup (h : ∀ k, t.lookup k = t'.lookup k) : t.keySet = t'.keySet := by
  ext k
  rw [mem_keySet, mem_keySet, mem_iff_lookup, mem_iff_lookup, h]

theorem keySet_mergeWith (f : V → V → V) (t t' : Table κ V) :
    (mergeWith f t t').keySet = t.keySet ∪ t'.keySet := by
  ext k
  rw [Finset.mem_union, mem_keySet, mem_keySet, mem_keySet, mem_iff_lookup, mem_iff_lookup,
    mem_iff_lookup, lookup_mergeWith]
  cases t.lookup k <;> cases t'.lookup k <;> simp

/-- A key that comes new into a table whose keys are few. -/
theorem size_lt_of_not_mem {s : Finset κ} (hsub : t.keySet ⊆ s) (hk : k ∈ s) (hnot : k ∉ t) :
    t.size < s.card := by
  rw [← card_keySet]
  apply Finset.card_lt_card
  refine ⟨hsub, fun hle => hnot (mem_keySet.mp (hle hk))⟩

end Table
