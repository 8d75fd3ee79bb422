import Mathlib.Tactic

/-!
# Sharding

A sequence of observations is split over shards: each observation goes to one shard, and each shard
keeps the order. The shards are merged pairwise, in any order and grouping: a `MergeTree` has each shard
as a leaf. `MergeTree.eval_shards` says that what a merged state holds is what was observed, if each
shard holds what it observed and merging puts together what two states hold.
-/

universe u v

/-- An order in which shards are merged. -/
inductive MergeTree (ι : Type u) where
  | leaf (i : ι)
  | node (l r : MergeTree ι)
deriving DecidableEq, Repr

namespace MergeTree

variable {ι : Type u} {S α : Type v}

/-- The shards that are merged. -/
def leaves : MergeTree ι → List ι
  | leaf i => [i]
  | node l r => l.leaves ++ r.leaves

def eval (merge : S → S → S) (shard : ι → S) : MergeTree ι → S
  | leaf i => shard i
  | node l r => merge (l.eval merge shard) (r.eval merge shard)

theorem eval_rel {merge : S → S → S} {shard : ι → S} {held : ι → Multiset α}
    {R : S → Multiset α → Prop} (hmr : ∀ a b m m', R a m → R b m' → R (merge a b) (m + m'))
    (tree : MergeTree ι) (hsh : ∀ i ∈ tree.leaves, R (shard i) (held i)) :
    R (tree.eval merge shard) (tree.leaves.map held).sum := by
  induction tree with
  | leaf i =>
    have hsum : ([i].map held).sum = held i := by simp
    rw [leaves, hsum]
    exact hsh i List.mem_cons_self
  | node l r ihl ihr =>
    have hl := ihl fun i hi => hsh i (List.mem_append.mpr (.inl hi))
    have hr := ihr fun i hi => hsh i (List.mem_append.mpr (.inr hi))
    rw [leaves, List.map_append, List.sum_append]
    exact hmr _ _ _ _ hl hr

end MergeTree

namespace Sharding

variable {ι : Type u} {S α : Type v} [DecidableEq ι]

def shard (observed : List (α × ι)) (i : ι) : List α :=
  (observed.filter fun x => x.2 = i).map Prod.fst

variable {observed : List (α × ι)}

/-- The shards hold the observations, each once. -/
theorem sum_shards {is : List ι} (hnp : is.Nodup) (h : ∀ x ∈ observed, x.2 ∈ is) :
    (is.map fun i => (shard observed i : Multiset α)).sum = (observed.map Prod.fst : Multiset α) := by
  induction observed with
  | nil =>
    apply List.sum_eq_zero
    intro m hm
    obtain ⟨i, -, rfl⟩ := List.mem_map.mp hm
    rfl
  | cons x observed ih =>
    have hrs := ih fun y hy => h y (List.mem_cons_of_mem x hy)
    have hmem := h x List.mem_cons_self
    have hsh : ∀ i, (shard (x :: observed) i : Multiset α) =
        (if x.2 = i then {x.1} else 0) + (shard observed i : Multiset α) := by
      intro i
      rw [shard, List.filter_cons]
      by_cases hi : x.2 = i
      · rw [if_pos (decide_eq_true hi), if_pos hi]
        rfl
      · rw [if_neg (by simpa using hi), if_neg hi]
        rfl
    have hone : (is.map fun i => if x.2 = i then ({x.1} : Multiset α) else 0).sum = {x.1} := by
      rw [List.sum_map_eq_nsmul_single x.2 _ fun i hi _ => if_neg (Ne.symm hi),
        List.count_eq_one_of_mem hnp hmem, if_pos rfl, one_nsmul]
    simp only [hsh, List.sum_map_add, hone, hrs]
    rfl

/-- An order of merging that has each shard once. -/
structure Covers (tree : MergeTree ι) (observed : List (α × ι)) : Prop where
  nodup : tree.leaves.Nodup
  mem : ∀ x ∈ observed, x.2 ∈ tree.leaves

/-- The merged state holds what was observed. -/
theorem eval_shards {merge : S → S → S} {feed : List α → S} {R : S → Multiset α → Prop}
    (hmr : ∀ a b m m', R a m → R b m' → R (merge a b) (m + m')) {tree : MergeTree ι}
    (hcv : Covers tree observed)
    (hfd : ∀ i, R (feed (shard observed i)) (shard observed i)) :
    R (tree.eval merge fun i => feed (shard observed i)) (observed.map Prod.fst : Multiset α) := by
  rw [← sum_shards hcv.nodup hcv.mem]
  exact tree.eval_rel hmr fun i _ => hfd i

/-- The observations of a shard are in the order in which they came. -/
theorem shard_sublist (observed : List (α × ι)) (i : ι) :
    (shard observed i).Sublist (observed.map Prod.fst) :=
  List.filter_sublist.map Prod.fst

end Sharding
