import Flowscope.Correlate.Time
import Flowscope.Lib.Series
import Flowscope.Lib.TableMerge

/-!
# Rolling rates

`RollingRate` (`src/correlate/rolling_rate.rs`) sums values by key in time buckets. A bucket holds at
most `max_keys` keys; the values of further keys are summed without their key. The buckets are in order
of their starts, which is part of the type.

The shape of a bucket is what its queries can see of it: the value of each key, and the sum of the
others. What the queries answer is a function of the shapes of the buckets (`alikeAt_of_shapes`,
`alike_of_shapes`). Merging two instances puts the shapes of their buckets together, as long as the keys
of each bucket have room (`find_shapes_merge`).
-/

namespace Flowscope.Correlate

open List Series Table

variable {K V : Type}

def saturatingAdd (a b : ℕ) : ℕ := min (a + b) (2^64 - 1)

/-- There is room for one more key. No table has as many keys as `usize::MAX`, which stands for no
bound. -/
def hasRoom (max_keys : Option ℕ) (len : ℕ) : Bool :=
  match max_keys with
  | some max_keys => len < max_keys
  | none => true

structure Bucket (K V : Type) where
  sums : Table K V
  /-- The sum of the values of keys for which there was no room. -/
  other : Option V

namespace Bucket

def new : Bucket K V := ⟨∅, none⟩

/-- Put a value to those for whose keys there was no room. -/
def addOther [Add V] [Zero V] (b : Bucket K V) (v : V) : Bucket K V :=
  { b with other := some (b.other.getD 0 + v) }

variable [DecidableEq K] [Add V] [Zero V]

/-- Add a value. Also whether there was no room for its key. -/
def add (b : Bucket K V) (k : K) (v : V) (max_keys : Option ℕ) : Bucket K V × Bool :=
  match b.sums.lookup k with
  | some sum => ({ b with sums := b.sums.put k (sum + v) }, false)
  | none =>
    if hasRoom max_keys b.sums.size then ({ b with sums := b.sums.put k v }, false)
    else (b.addOther v, true)

/-- Add everything in a bucket. Also for how many keys there was no room. -/
def merge (mine b : Bucket K V) (max_keys : Option ℕ) : Bucket K V × ℕ :=
  let r := b.sums.toList.foldl (fun (acc : Bucket K V × ℕ) e =>
    let r := acc.1.add e.1 e.2 max_keys
    (r.1, if r.2 then acc.2 + 1 else acc.2)) (mine, 0)
  match b.other with
  | some v => (r.1.addOther v, r.2)
  | none => r

end Bucket

structure RollingRate (K V : Type) where
  window : Duration
  bucket_width : Duration
  /-- The buckets by their starts, the oldest first. -/
  buckets : List (Timestamp × Bucket K V)
  max_keys : Option ℕ
  overflowed : ℕ
  ordered : Series.Ordered buckets

namespace RollingRate

def new (window bucket_width : Duration) (max_keys : Option ℕ) : RollingRate K V :=
  ⟨window, bucket_width, [], max_keys, 0, .nil⟩

def newUnbounded (window bucket_width : Duration) : RollingRate K V := new window bucket_width none

/-- The buckets that are left at a time when a value comes: none before the window that ends there, and
none more than a window later. -/
def keep (r : RollingRate K V) (now : Timestamp) : List (Timestamp × Bucket K V) :=
  (r.buckets.dropWhile fun b => b.1 < cutoffFor r.window now).rdropWhile fun b =>
    b.1.toDuration > min (now.toDuration + r.window) Duration.max

theorem ordered_keep (r : RollingRate K V) (now : Timestamp) : Ordered (r.keep now) := by
  have hfront := r.ordered.sublist (dropWhile_sublist fun b => b.1 < cutoffFor r.window now)
  have hback : r.keep now <+: r.buckets.dropWhile fun b => b.1 < cutoffFor r.window now :=
    rdropWhile_prefix _ _
  exact hfront.sublist hback.sublist

variable [DecidableEq K] [Add V] [Zero V]

/-- Add a value to the bucket of its time. -/
def record (r : RollingRate K V) (k : K) (v : V) (now : Timestamp) : RollingRate K V :=
  let buckets := r.keep now
  let start := bucketStartFor r.bucket_width now
  let bucket := (Series.find buckets start).getD .new
  { r with
    buckets := Series.upsert .new (fun b => (b.add k v r.max_keys).1) start buckets
    overflowed := if (bucket.add k v r.max_keys).2 then saturatingAdd r.overflowed 1 else r.overflowed
    ordered := Series.ordered_upsert (r.ordered_keep now) _ _ _ }

/-- Merge one bucket into the bucket of its start. -/
def mergeBucket (max_keys : Option ℕ) (acc : List (Timestamp × Bucket K V) × ℕ)
    (b : Timestamp × Bucket K V) : List (Timestamp × Bucket K V) × ℕ :=
  let mine := (Series.find acc.1 b.1).getD .new
  (Series.upsert .new (fun mine => (mine.merge b.2 max_keys).1) b.1 acc.1,
    saturatingAdd acc.2 (mine.merge b.2 max_keys).2)

/-- The buckets and the count after a merge. -/
def mergeBuckets (r other : RollingRate K V) : List (Timestamp × Bucket K V) × ℕ :=
  other.buckets.foldl (mergeBucket r.max_keys)
    (r.buckets, saturatingAdd r.overflowed other.overflowed)

theorem mergeBuckets_fst (r other : RollingRate K V) :
    (r.mergeBuckets other).1 =
      upsertAll .new (fun b mine => (mine.merge b r.max_keys).1) r.buckets other.buckets := by
  rw [mergeBuckets]
  generalize saturatingAdd r.overflowed other.overflowed = n
  generalize r.buckets = buckets
  induction other.buckets generalizing buckets n with
  | nil => rfl
  | cons b bs ih =>
    exact ih _ _

/-- Merge an instance with the same window and bucket width into this one. -/
def merge (r other : RollingRate K V) : RollingRate K V :=
  { r with
    buckets := (r.mergeBuckets other).1
    overflowed := (r.mergeBuckets other).2
    ordered := by
      rw [mergeBuckets_fst]
      exact Series.ordered_upsertAll r.ordered _ _ _ }

/-! ## Queries -/

/-- The buckets of the window that ends at a time. -/
def inWindow (r : RollingRate K V) (now : Timestamp) : List (Timestamp × Bucket K V) :=
  r.buckets.filter fun b => cutoffFor r.window now ≤ b.1

def sum (r : RollingRate K V) (k : K) (now : Timestamp) : V :=
  ((r.inWindow now).filterMap fun b => b.2.sums.lookup k).foldl (· + ·) 0

def otherSum (r : RollingRate K V) (now : Timestamp) : V :=
  ((r.inWindow now).filterMap fun b => b.2.other).foldl (· + ·) 0

section Rates

variable {F : Type} [Add F] [Zero F] [Div F] (as_f64 : V → F) (as_secs_f64 : Duration → F)

def rate (r : RollingRate K V) (k : K) (now : Timestamp) : F :=
  (((r.inWindow now).filterMap fun b => b.2.sums.lookup k).map as_f64).foldl (· + ·) 0 /
    as_secs_f64 r.window

def otherRate (r : RollingRate K V) (now : Timestamp) : F :=
  (((r.inWindow now).filterMap fun b => b.2.other).map as_f64).foldl (· + ·) 0 / as_secs_f64 r.window

/-- The rate of every key of the window. The greatest of them are what `top_k` answers. -/
def snapshot (r : RollingRate K V) (now : Timestamp) : Table K F :=
  let totals : Table K V := (r.inWindow now).foldl (fun totals b => totals.mergeWith (· + ·) b.2.sums) ∅
  totals.mapVals fun _ sum => as_f64 sum / as_secs_f64 r.window

end Rates

/-- The number of keys of the window. -/
def len (r : RollingRate K V) (now : Timestamp) : ℕ :=
  let seen : Finset K := (r.inWindow now).foldl (fun seen b => seen ∪ b.2.sums.keySet) ∅
  seen.card

def visited (r : RollingRate K V) (now : Timestamp) : List (Table K V) :=
  (r.inWindow now).map fun b => b.2.sums

def isEmpty (r : RollingRate K V) : Bool :=
  r.buckets.all fun b => b.2.sums.size = 0 ∧ b.2.other.isNone

def bucketCount (r : RollingRate K V) : ℕ := r.buckets.length

def storedEntries (r : RollingRate K V) : ℕ := (r.buckets.map fun b => b.2.sums.size).sum

/-! ## What the queries see -/

end RollingRate

/-- What the queries see of a bucket. -/
abbrev Shape (K V : Type) : Type := (K → Option V) × Option V

def Bucket.shape [DecidableEq K] (b : Bucket K V) : Shape K V := (b.sums.lookup, b.other)

/-- Two shapes put together. -/
def Shape.combine [Add V] (a b : Shape K V) : Shape K V :=
  (fun k => Option.merge (· + ·) (a.1 k) (b.1 k), Option.merge (· + ·) a.2 b.2)

theorem map_eq_of_map_eq {α β γ : Type} {f : α → β} {g : α → γ} (h : ∀ a b, f a = f b → g a = g b)
    {l l' : List α} (hl : l.map f = l'.map f) : l.map g = l'.map g := by
  rw [← forall₂_eq_eq_eq, forall₂_map_left_iff, forall₂_map_right_iff] at hl ⊢
  exact hl.imp h

namespace RollingRate

variable [DecidableEq K]

def shapes (r : RollingRate K V) : List (Timestamp × Shape K V) :=
  r.buckets.map fun b => (b.1, b.2.shape)

theorem ordered_shapes (r : RollingRate K V) : Ordered r.shapes :=
  ordered_map r.ordered Bucket.shape

theorem find_shapes (r : RollingRate K V) (t : Timestamp) :
    find r.shapes t = (find r.buckets t).map Bucket.shape :=
  find_map Bucket.shape r.buckets t

/-- Two instances answer every query that is about the window that ends at a time alike. Tables answer
alike if they have the same lookups: they are iterated in no particular order. -/
structure AlikeAt [Add V] [Zero V] (r r' : RollingRate K V) (now : Timestamp) : Prop where
  sum : ∀ k, r.sum k now = r'.sum k now
  otherSum : r.otherSum now = r'.otherSum now
  rate : ∀ {F : Type} [Add F] [Zero F] [Div F] (as_f64 : V → F) (as_secs_f64 : Duration → F) (k : K),
    r.rate as_f64 as_secs_f64 k now = r'.rate as_f64 as_secs_f64 k now
  otherRate : ∀ {F : Type} [Add F] [Zero F] [Div F] (as_f64 : V → F) (as_secs_f64 : Duration → F),
    r.otherRate as_f64 as_secs_f64 now = r'.otherRate as_f64 as_secs_f64 now
  snapshot : ∀ {F : Type} [Add F] [Zero F] [Div F] (as_f64 : V → F) (as_secs_f64 : Duration → F) (k : K),
    (r.snapshot as_f64 as_secs_f64 now).lookup k = (r'.snapshot as_f64 as_secs_f64 now).lookup k
  len : r.len now = r'.len now
  visited : (r.visited now).map (fun t => t.lookup) = (r'.visited now).map fun t => t.lookup

/-- What the queries of a window answer depends on the shapes in the window. -/
theorem alikeAt_of_shapes [Add V] [Zero V] {r r' : RollingRate K V} {now : Timestamp}
    (hwn : r.window = r'.window)
    (h : r.shapes.filter (fun b => cutoffFor r.window now ≤ b.1) =
      r'.shapes.filter fun b => cutoffFor r.window now ≤ b.1) : r.AlikeAt r' now := by
  have hsh : (r.inWindow now).map (fun b => (b.1, b.2.shape)) =
      (r'.inWindow now).map fun b => (b.1, b.2.shape) := by
    rw [shapes, shapes, filter_map, filter_map] at h
    rw [inWindow, inWindow, ← hwn]
    exact h
  have hlk : (r.inWindow now).map (fun b => b.2.sums.lookup) =
      (r'.inWindow now).map fun b => b.2.sums.lookup :=
    map_eq_of_map_eq (fun a b hab => congrArg (fun s => s.2.1) hab) hsh
  have hor : (r.inWindow now).map (fun b => b.2.other) = (r'.inWindow now).map fun b => b.2.other :=
    map_eq_of_map_eq (fun a b hab => congrArg (fun s => s.2.2) hab) hsh
  have hky : (r.inWindow now).map (fun b => b.2.sums.keySet) =
      (r'.inWindow now).map fun b => b.2.sums.keySet :=
    map_eq_of_map_eq (fun a b hab => keySet_eq_of_lookup (congrFun hab)) hlk
  have hvl : ∀ k, (r.inWindow now).filterMap (fun b => b.2.sums.lookup k) =
      (r'.inWindow now).filterMap fun b => b.2.sums.lookup k := by
    intro k
    have hk := congrArg (filterMap fun f => f k) hlk
    rwa [filterMap_map, filterMap_map] at hk
  have hos : (r.inWindow now).filterMap (fun b => b.2.other) =
      (r'.inWindow now).filterMap fun b => b.2.other := by
    have ho := congrArg (filterMap id) hor
    rwa [filterMap_map, filterMap_map] at ho
  refine ⟨?_, ?_, ?_, ?_, ?_, ?_, ?_⟩
  · intro k
    rw [sum, sum, hvl]
  · rw [otherSum, otherSum, hos]
  · intro F _ _ _ as_f64 as_secs_f64 k
    rw [rate, rate, hvl, hwn]
  · intro F _ _ _ as_f64 as_secs_f64
    rw [otherRate, otherRate, hos, hwn]
  · intro F _ _ _ as_f64 as_secs_f64 k
    have hk := congrArg (List.map fun f => f k) hlk
    rw [map_map, map_map] at hk
    rw [snapshot, snapshot, lookup_mapVals, lookup_mapVals, lookup_foldl_mergeWith,
      lookup_foldl_mergeWith,
      hwn]
    exact congrArg (fun l => Option.map _ (List.foldl _ _ l)) hk
  · have hfo : ∀ bs : List (Timestamp × Bucket K V),
        bs.foldl (fun seen b => seen ∪ b.2.sums.keySet) ∅ =
          (bs.map fun b => b.2.sums.keySet).foldl (· ∪ ·) ∅ := fun _ => foldl_map.symm
    rw [len, len, hfo, hfo, hky]
  · rw [visited, visited, map_map, map_map]
    exact hlk

/-- Two instances answer every query alike. -/
structure Alike [Add V] [Zero V] (r r' : RollingRate K V) : Prop where
  alikeAt : ∀ now, r.AlikeAt r' now
  overflowed : r.overflowed = r'.overflowed
  isEmpty : r.isEmpty = r'.isEmpty
  bucketCount : r.bucketCount = r'.bucketCount
  storedEntries : r.storedEntries = r'.storedEntries

/-- What the queries answer depends on the shapes. -/
theorem alike_of_shapes [Add V] [Zero V] {r r' : RollingRate K V} (hwn : r.window = r'.window)
    (hov : r.overflowed = r'.overflowed) (h : r.shapes = r'.shapes) : r.Alike r' := by
  have hss : r.buckets.map (fun b => (b.2.sums.size, b.2.other)) =
      r'.buckets.map fun b => (b.2.sums.size, b.2.other) := by
    refine map_eq_of_map_eq (fun a b hab => ?_) h
    have hlk : a.2.sums.lookup = b.2.sums.lookup := congrArg (fun s => s.2.1) hab
    have hor : a.2.other = b.2.other := congrArg (fun s => s.2.2) hab
    rw [size_eq_of_lookup (congrFun hlk), hor]
  refine ⟨fun now => alikeAt_of_shapes hwn (by rw [h]), hov, ?_, ?_, ?_⟩
  · have hall := congrArg (all · fun s => s.1 = 0 ∧ s.2.isNone) hss
    rwa [all_map, all_map] at hall
  · have hln := congrArg List.length hss
    rwa [length_map, length_map] at hln
  · have hsum := congrArg (fun l => (l.map Prod.fst).sum) hss
    rwa [map_map, map_map] at hsum

end RollingRate

/-! ## Merging where there is room -/

def Room (max_keys : Option ℕ) (keys : Finset K) : Prop := ∀ n, max_keys = some n → keys.card ≤ n

theorem hasRoom_of_room [DecidableEq K] {max_keys : Option ℕ} {keys : Finset K} (h : Room max_keys keys)
    {t : Table K V} (hsub : t.keySet ⊆ keys) {k : K} (hk : k ∈ keys) (hnot : k ∉ t) :
    hasRoom max_keys t.size = true := by
  cases hmax : max_keys with
  | none => rfl
  | some n => exact decide_eq_true ((size_lt_of_not_mem hsub hk hnot).trans_le (h n hmax))

namespace Bucket

variable [DecidableEq K] [AddCommMonoid V] {b b' : Bucket K V} {max_keys : Option ℕ} {keys : Finset K}

omit [DecidableEq K] in
theorem other_addOther (b : Bucket K V) (v : V) :
    (b.addOther v).other = Option.merge (· + ·) b.other (some v) := by
  rw [addOther]
  cases b.other with
  | none => rw [Option.getD_none, zero_add, Option.merge_none_left]
  | some w => rfl

theorem add_of_room (h : Room max_keys keys) (hsub : b.sums.keySet ⊆ keys) {k : K} (hk : k ∈ keys)
    (v : V) : b.add k v max_keys = ({ b with sums := b.sums.addWith (· + ·) k v }, false) := by
  rw [add, addWith]
  cases hlk : b.sums.lookup k with
  | some w => rfl
  | none =>
    have hnot : k ∉ b.sums := by
      rw [mem_iff_lookup, hlk]
      exact nofun
    rw [if_pos (hasRoom_of_room h hsub hk hnot)]

theorem keySet_addWith_subset {t : Table K V} (hsub : t.keySet ⊆ keys) {k : K} (hk : k ∈ keys) (v : V) :
    (t.addWith (· + ·) k v).keySet ⊆ keys := by
  intro j hj
  rw [mem_keySet, mem_iff_lookup, lookup_addWith] at hj
  by_cases hjk : j = k
  · rw [hjk]
    exact hk
  · rw [if_neg hjk] at hj
    exact hsub (mem_keySet.mpr (mem_iff_lookup.mpr hj))

/-- The values of keys for which there is room are all added. -/
theorem merge_of_room (h : Room max_keys keys) (hsub : b.sums.keySet ⊆ keys)
    (hsb' : b'.sums.keySet ⊆ keys) :
    (b.merge b' max_keys).1.shape = b.shape.combine b'.shape ∧ (b.merge b' max_keys).2 = 0 := by
  have hfo : ∀ (l : List (K × V)), (∀ e ∈ l, e.1 ∈ keys) → ∀ b : Bucket K V, b.sums.keySet ⊆ keys →
      l.foldl (fun (acc : Bucket K V × ℕ) e =>
        ((acc.1.add e.1 e.2 max_keys).1, if (acc.1.add e.1 e.2 max_keys).2 then acc.2 + 1 else acc.2))
        (b, 0) = ({ b with sums := l.foldl (fun t e => t.addWith (· + ·) e.1 e.2) b.sums }, 0) := by
    intro l
    induction l with
    | nil => exact fun _ _ _ => rfl
    | cons e l ih =>
      intro hl b hb
      have he := hl e mem_cons_self
      rw [foldl_cons, add_of_room h hb he]
      exact ih (fun e' he' => hl e' (mem_cons_of_mem e he')) _ (keySet_addWith_subset hb he e.2)
  have hky : ∀ e ∈ b'.sums.toList, e.1 ∈ keys := by
    intro e he
    exact hsb' (mem_keySet.mpr (mem_iff_lookup.mpr ⟨e.2, mem_toList.mp he⟩))
  have hlk : (b.sums.mergeWith (· + ·) b'.sums).lookup =
      fun k => Option.merge (· + ·) (b.sums.lookup k) (b'.sums.lookup k) := by
    funext k
    exact lookup_mergeWith
  rw [merge]
  rw [hfo _ hky b hsub, ← mergeWith]
  cases hor : b'.other with
  | none =>
    refine ⟨?_, rfl⟩
    rw [shape, shape, shape, Shape.combine, hor, hlk, Option.merge_none_right]
  | some v =>
    refine ⟨?_, rfl⟩
    rw [shape, shape, shape, Shape.combine, hor, other_addOther, ← hlk]
    rfl

end Bucket

section Combine

variable [AddCommMonoid V]

theorem Shape.combine_comm (a b : Shape K V) : a.combine b = b.combine a := by
  have hcm : ∀ x y : Option V, Option.merge (· + ·) x y = Option.merge (· + ·) y x :=
    Std.Commutative.comm
  unfold combine
  rw [hcm a.2 b.2]
  congr 1
  funext k
  exact hcm _ _

theorem Shape.combine_assoc (a b c : Shape K V) : (a.combine b).combine c = a.combine (b.combine c) := by
  have hac : ∀ x y z : Option V, Option.merge (· + ·) (Option.merge (· + ·) x y) z =
      Option.merge (· + ·) x (Option.merge (· + ·) y z) := Std.Associative.assoc
  unfold combine
  rw [hac a.2 b.2 c.2]
  congr 1
  funext k
  exact hac _ _ _

instance : Std.Commutative (Shape.combine (K := K) (V := V)) := ⟨Shape.combine_comm⟩

instance : Std.Associative (Shape.combine (K := K) (V := V)) := ⟨Shape.combine_assoc⟩

theorem Shape.combine_new [DecidableEq K] (s : Shape K V) :
    (Bucket.new : Bucket K V).shape.combine s = s := by
  have hlk : ∀ k, (Bucket.new : Bucket K V).sums.lookup k = none := fun _ => rfl
  have hor : (Bucket.new : Bucket K V).other = none := rfl
  rw [Bucket.shape, combine]
  simp only [hlk, hor, Option.merge_none_left]

end Combine

theorem saturatingAdd_le (a b : ℕ) : saturatingAdd a b ≤ 2^64 - 1 := min_le_right _ _

theorem saturatingAdd_comm (a b : ℕ) : saturatingAdd a b = saturatingAdd b a := by
  rw [saturatingAdd, saturatingAdd, Nat.add_comm]

theorem saturatingAdd_assoc (a b c : ℕ) :
    saturatingAdd (saturatingAdd a b) c = saturatingAdd a (saturatingAdd b c) := by
  unfold saturatingAdd
  omega

namespace RollingRate

variable [DecidableEq K]

/-- The keys of the bucket of a start. -/
def keysAt (r : RollingRate K V) (t : Timestamp) : Finset K :=
  ((Series.find r.buckets t).getD .new).sums.keySet

theorem mem_keysAt {r : RollingRate K V} {t : Timestamp} {k : K} :
    k ∈ r.keysAt t ↔ ∃ v, ((find r.shapes t).bind fun s => s.1 k) = some v := by
  rw [keysAt, mem_keySet, mem_iff_lookup, find_shapes]
  cases find r.buckets t <;> rfl

variable [AddCommMonoid V] {a b c : RollingRate K V}

section

variable (hrm : ∀ t, Room a.max_keys (a.keysAt t ∪ b.keysAt t))
include hrm

/-- Merging puts the shapes of the buckets together. -/
theorem find_shapes_merge (t : Timestamp) :
    find (a.merge b).shapes t =
      Option.merge Shape.combine (find a.shapes t) (find b.shapes t) := by
  have hbk : (a.merge b).buckets =
      upsertAll .new (fun b mine => (mine.merge b a.max_keys).1) a.buckets b.buckets :=
    mergeBuckets_fst a b
  rw [find_shapes, find_shapes, find_shapes, hbk, find_upsertAll a.ordered _ _ b.ordered]
  have hky := hrm t
  unfold keysAt at hky
  cases hb : find b.buckets t with
  | none => rw [Option.map_none, Option.merge_none_right]
  | some other =>
    rw [hb, Option.getD_some] at hky
    have hmr := (Bucket.merge_of_room hky Finset.subset_union_left Finset.subset_union_right).1
    rw [Option.map_some, Option.map_some, hmr]
    cases find a.buckets t with
    | none => rw [Option.getD_none, Shape.combine_new, Option.map_none, Option.merge_none_left]
    | some mine => rw [Option.getD_some, Option.map_some, Option.merge_some_some]

theorem overflowed_merge : (a.merge b).overflowed = saturatingAdd a.overflowed b.overflowed := by
  -- a bucket is merged into one that no earlier bucket was merged into
  have hfo : ∀ (bs : List (Timestamp × Bucket K V)), Ordered bs →
      (∀ e ∈ bs, e ∈ b.buckets) → ∀ l n, Ordered l → n ≤ 2^64 - 1 →
      (∀ e ∈ bs, find l e.1 = find a.buckets e.1) →
      (bs.foldl (mergeBucket a.max_keys) (l, n)).2 = n := by
    intro bs
    induction bs with
    | nil => exact fun _ _ _ _ _ _ _ => rfl
    | cons e bs ih =>
      intro hbs hmem l n hl hn hfd
      obtain ⟨hfr, hrs⟩ := pairwise_cons.mp hbs
      have hky := hrm e.1
      rw [keysAt, keysAt, find_of_mem b.ordered (hmem e mem_cons_self), Option.getD_some] at hky
      have hmr := (Bucket.merge_of_room hky Finset.subset_union_left Finset.subset_union_right).2
      have hzr : saturatingAdd n 0 = n := min_eq_left hn
      rw [foldl_cons, mergeBucket]
      rw [hfd e mem_cons_self, hmr, hzr]
      refine ih hrs (fun e' he' => hmem e' (mem_cons_of_mem e he')) _ n
        (ordered_upsert hl _ _ _) hn fun e' he' => ?_
      rw [find_upsert hl, if_neg (hfr e' he').ne', hfd e' (mem_cons_of_mem e he')]
  exact hfo b.buckets b.ordered (fun _ he => he) a.buckets _ a.ordered (saturatingAdd_le _ _)
    fun _ _ => rfl

/-- The keys of a merged bucket are those of the two. -/
theorem keysAt_merge (t : Timestamp) : (a.merge b).keysAt t = a.keysAt t ∪ b.keysAt t := by
  ext k
  rw [Finset.mem_union, mem_keysAt, mem_keysAt, mem_keysAt, find_shapes_merge hrm]
  cases find a.shapes t with
  | none => simp
  | some s =>
    cases find b.shapes t with
    | none => simp
    | some s' =>
      rw [Option.merge_some_some, Option.bind_some, Option.bind_some, Option.bind_some]
      change (∃ v, Option.merge (· + ·) (s.1 k) (s'.1 k) = some v) ↔ _
      cases s.1 k <;> cases s'.1 k <;> simp

end

/-- In either order, two instances give the same where there is room for their keys. -/
theorem merge_comm_of_room (hwn : a.window = b.window) (hmax : a.max_keys = b.max_keys)
    (hrm : ∀ t, Room a.max_keys (a.keysAt t ∪ b.keysAt t)) : (a.merge b).Alike (b.merge a) := by
  have hrm' : ∀ t, Room b.max_keys (b.keysAt t ∪ a.keysAt t) := by
    intro t
    rw [← hmax, Finset.union_comm]
    exact hrm t
  refine alike_of_shapes hwn ?_ ?_
  · rw [overflowed_merge hrm, overflowed_merge hrm', saturatingAdd_comm]
  · apply ext (ordered_shapes _) (ordered_shapes _)
    intro t
    rw [find_shapes_merge hrm, find_shapes_merge hrm']
    exact Std.Commutative.comm _ _

/-- In either grouping, three instances give the same where there is room for their keys. -/
theorem merge_assoc_of_room (hmax : a.max_keys = b.max_keys)
    (hrm : ∀ t, Room a.max_keys (a.keysAt t ∪ b.keysAt t ∪ c.keysAt t)) :
    ((a.merge b).merge c).Alike (a.merge (b.merge c)) := by
  have hmn : ∀ {s s' : Finset K}, s ⊆ s' → Room a.max_keys s' → Room a.max_keys s :=
    fun hsub h n hn => (Finset.card_le_card hsub).trans (h n hn)
  have hab : ∀ t, Room a.max_keys (a.keysAt t ∪ b.keysAt t) := fun t =>
    hmn Finset.subset_union_left (hrm t)
  have hbc : ∀ t, Room b.max_keys (b.keysAt t ∪ c.keysAt t) := fun t =>
    hmax ▸ hmn (Finset.union_subset_union_left Finset.subset_union_right) (hrm t)
  have habc : ∀ t, Room (a.merge b).max_keys ((a.merge b).keysAt t ∪ c.keysAt t) := by
    intro t
    rw [keysAt_merge hab]
    exact hrm t
  have hab' : ∀ t, Room a.max_keys (a.keysAt t ∪ (b.merge c).keysAt t) := by
    intro t
    rw [keysAt_merge hbc, ← Finset.union_assoc]
    exact hrm t
  refine alike_of_shapes rfl ?_ ?_
  · rw [overflowed_merge habc, overflowed_merge hab, overflowed_merge hab', overflowed_merge hbc,
      saturatingAdd_assoc]
  · apply ext (ordered_shapes _) (ordered_shapes _)
    intro t
    rw [find_shapes_merge habc, find_shapes_merge hab, find_shapes_merge hab', find_shapes_merge hbc]
    exact Std.Associative.assoc _ _ _

end RollingRate

end Flowscope.Correlate
