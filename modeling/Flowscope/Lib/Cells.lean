import Flowscope.Lib.Sharding

/-!
# Rows of cells

A sketch is a row of cells with an operation on them that is commutative and associative and has a
neutral element. An observation hits some of the cells, each with a value; two rows are merged cell by
cell. A row then depends only on which observations there were: it is the merge, in any order, of the
rows of the single observations (`Cells.Holds`). Hence it does not matter whether the observations are
made on one row, or on shards that are merged (`Cells.eval_eq`).
-/

universe u v w

namespace Cells

open List

variable {C : Type u} (op : C → C → C) (e : C)

/-- Apply a value to a cell. -/
def hit (cells : List C) (h : ℕ × C) : List C := cells.modify h.1 (op · h.2)

/-- Apply values to cells, one after the other. -/
def hits (cells : List C) (hs : List (ℕ × C)) : List C := hs.foldl (hit op) cells

/-- Merge cell by cell. -/
def merge (a b : List C) : List C := List.zipWith op a b

variable {op e}

theorem length_hits (cells : List C) (hs : List (ℕ × C)) : (hits op cells hs).length = cells.length := by
  induction hs generalizing cells with
  | nil => rfl
  | cons h hs ih =>
    rw [hits, foldl_cons, ← hits, ih, hit, length_modify]

section Laws

variable [Std.Commutative op] [Std.Associative op]

instance : Std.Commutative (merge op) :=
  ⟨fun _ _ => List.zipWith_comm_of_comm Std.Commutative.comm⟩

instance : Std.Associative (merge op) :=
  ⟨fun x y z => by
    apply List.ext_getElem?
    intro i
    simp only [merge, List.getElem?_zipWith]
    cases x[i]? <;> cases y[i]? <;> cases z[i]? <;> try rfl
    exact congrArg some (Std.Associative.assoc _ _ _)⟩

end Laws

section Neutral

variable (hnt : ∀ c, op c e = c) {cells : List C} {n : ℕ}

include hnt

theorem merge_replicate (h : cells.length = n) : merge op cells (replicate n e) = cells := by
  subst h
  induction cells with
  | nil => rfl
  | cons c cells ih =>
    rw [length_cons, replicate_succ, merge, zipWith_cons_cons, hnt, ← merge, ih]

variable [Std.Commutative op]

theorem hit_eq (h : cells.length = n) (x : ℕ × C) :
    hit op cells x = merge op cells (hit op (replicate n e) x) := by
  apply ext_getElem?
  intro i
  rw [hit, hit, merge, getElem?_zipWith, getElem?_modify, getElem?_modify, getElem?_replicate]
  by_cases hi : i < n
  · obtain ⟨c, hc⟩ : ∃ c, cells[i]? = some c := ⟨_, getElem?_eq_getElem (h ▸ hi)⟩
    have hcm : op e x.2 = x.2 := (Std.Commutative.comm e x.2).trans (hnt x.2)
    rw [if_pos hi, hc]
    by_cases hx : x.1 = i
    · simp [hx, hcm]
    · simp [hx, hnt]
  · have hnn : cells[i]? = none := getElem?_eq_none (by omega)
    rw [hnn]
    rfl

variable [Std.Associative op]

/-- Hitting cells is merging with the row of what hits them. -/
theorem hits_eq (h : cells.length = n) (hs : List (ℕ × C)) :
    hits op cells hs = merge op cells (hits op (replicate n e) hs) := by
  induction hs generalizing cells with
  | nil => exact (merge_replicate hnt h).symm
  | cons x hs ih =>
    have hlen : (hit op cells x).length = n := by rw [hit, length_modify, h]
    have hln' : (hit op (replicate n e) x).length = n := by
      rw [hit, length_modify, length_replicate]
    calc hits op cells (x :: hs) = hits op (hit op cells x) hs := rfl
      _ = merge op (hit op cells x) (hits op (replicate n e) hs) := ih hlen
      _ = merge op (merge op cells (hit op (replicate n e) x))
        (hits op (replicate n e) hs) := by
        rw [hit_eq hnt h]
      _ = merge op cells (merge op (hit op (replicate n e) x) (hits op (replicate n e) hs)) :=
        Std.Associative.assoc _ _ _
      _ = merge op cells (hits op (replicate n e) (x :: hs)) := by
        rw [← ih hln']
        rfl

end Neutral

/-! ## What a row holds -/

section Holds

variable {α : Type v} [Std.Commutative op] [Std.Associative op] (op e)

/-- The row of `n` cells is the merge of the rows of the observations. -/
def Holds (n : ℕ) (hitsOf : α → List (ℕ × C)) (cells : List C) (m : Multiset α) : Prop :=
  cells = (m.map fun x => hits op (List.replicate n e) (hitsOf x)).fold (merge op) (List.replicate n e)

variable {op e} {n : ℕ} {hitsOf : α → List (ℕ × C)} (hnt : ∀ c, op c e = c)
include hnt

theorem Holds.merge {a b : List C} {m m' : Multiset α} (h : Holds op e n hitsOf a m)
    (h' : Holds op e n hitsOf b m') : Holds op e n hitsOf (merge op a b) (m + m') := by
  have hem : Cells.merge op (replicate n e) (replicate n e) = replicate n e :=
    merge_replicate hnt length_replicate
  have hfo := Multiset.fold_add (Cells.merge op) (replicate n e) (replicate n e)
  rw [hem] at hfo
  rw [Holds, Multiset.map_add, hfo, ← h, ← h']

/-- Observations one after the other. -/
theorem holds_foldl (l : List α) :
    Holds op e n hitsOf (l.foldl (fun cells x => hits op cells (hitsOf x)) (replicate n e)) l := by
  have hln : ∀ (l : List α) (cells : List C),
      (l.foldl (fun cells x => hits op cells (hitsOf x)) cells).length = cells.length := by
    intro l
    induction l with
    | nil => exact fun _ => rfl
    | cons x l ih => exact fun cells => (ih _).trans (length_hits cells _)
  induction l using reverseRecOn with
  | nil => rfl
  | append_singleton l x ih =>
    have hlen := (hln l (replicate n e)).trans length_replicate
    have hcs : ((l ++ [x] : List α) : Multiset α) = x ::ₘ (l : Multiset α) :=
      Multiset.coe_eq_coe.mpr (perm_append_singleton x l)
    rw [Holds] at ih ⊢
    rw [foldl_append, foldl_cons, foldl_nil, hits_eq hnt hlen, hcs,
      Multiset.map_cons, Multiset.fold_cons_right, ← ih]

omit hnt in
theorem Holds.unique {a b : List C} {m : Multiset α} (h : Holds op e n hitsOf a m)
    (h' : Holds op e n hitsOf b m) : a = b := h.trans h'.symm

end Holds

/-- A structure that is given by a row of cells. -/
theorem foldl_mk {S α : Type v} {op : C → C → C} {hitsOf : α → List (ℕ × C)}
    {mk : List C → S} {add : S → α → S} (hadd : ∀ c x, add (mk c) x = mk (hits op c (hitsOf x)))
    (l : List α) (cells : List C) :
    l.foldl add (mk cells) = mk (l.foldl (fun cells x => hits op cells (hitsOf x)) cells) := by
  induction l generalizing cells with
  | nil => rfl
  | cons x l ih => rw [foldl_cons, hadd, ih, foldl_cons]

/-- A structure that is given by a row of cells cannot tell shards that are merged from one instance. -/
theorem eval_eq {C S α : Type v} {ι : Type w} [DecidableEq ι] {op : C → C → C} [Std.Commutative op]
    [Std.Associative op] {e : C} (hnt : ∀ c, op c e = c) {n : ℕ} {hitsOf : α → List (ℕ × C)}
    {mk : List C → S} {merge : S → S → S} (hmr : ∀ a b, merge (mk a) (mk b) = mk (Cells.merge op a b))
    {add : S → α → S} (hadd : ∀ c x, add (mk c) x = mk (hits op c (hitsOf x))) {feed : List α → S}
    (hfd : ∀ l, feed l = l.foldl add (mk (replicate n e))) {tree : MergeTree ι}
    {observed : List (α × ι)} (hcv : Sharding.Covers tree observed) :
    (tree.eval merge fun i => feed (Sharding.shard observed i)) = feed (observed.map Prod.fst) := by
  have hmk : ∀ l, ∃ cells, feed l = mk cells ∧ Holds op e n hitsOf cells (l : Multiset α) := by
    intro l
    exact ⟨_, (hfd l).trans (foldl_mk hadd l _), holds_foldl hnt l⟩
  have hev : ∃ cells, (tree.eval merge fun i => feed (Sharding.shard observed i)) = mk cells ∧
      Holds op e n hitsOf cells (observed.map Prod.fst : Multiset α) := by
    refine Sharding.eval_shards (R := fun s m => ∃ cells, s = mk cells ∧ Holds op e n hitsOf cells m)
      ?_ hcv fun i => hmk _
    rintro _ _ m m' ⟨a, rfl, ha⟩ ⟨b, rfl, hb⟩
    exact ⟨_, hmr a b, ha.merge hnt hb⟩
  obtain ⟨cells, hcl, hhs⟩ := hev
  obtain ⟨cells', hcl', hhs'⟩ := hmk (observed.map Prod.fst)
  rw [hcl, hcl', hhs.unique hhs']

end Cells
