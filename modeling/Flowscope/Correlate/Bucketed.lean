import Flowscope.Correlate.RollingRate
import Mathlib.Data.BitVec
import Mathlib.Data.List.Sort

/-!
# Windowed counters

`TimeBucketedCounter` (`src/correlate/bucketed.rs`) counts events by key in time buckets. Other than
`RollingRate`, it looks only at the newest bucket when an event comes, so that its buckets are in order
only as long as time does not go back.

While time does not go back, an event is an update of the series of buckets (`shapes_bump`), and so is
merging a bucket into buckets in order (`shapes_mergeBucket`).
-/

namespace Flowscope.Correlate

open List Series

variable {K : Type}

structure TimeBucketedCounter (K : Type) where
  window : Duration
  bucket_width : Duration
  capacity : Option ℕ
  buckets : List (Timestamp × Table K (BitVec 64))

namespace TimeBucketedCounter

def new (window bucket_width : Duration) (capacity : Option ℕ) : TimeBucketedCounter K :=
  ⟨window, bucket_width, capacity, []⟩

def newUnbounded (window bucket_width : Duration) : TimeBucketedCounter K := new window bucket_width none

variable [DecidableEq K]

/-- Drop the keys of the oldest bucket with the lowest counts. -/
def dropLowest (oldest : Table K (BitVec 64)) (drop_n : ℕ) : Table K (BitVec 64) :=
  ((oldest.toList.insertionSort fun a b => a.2 ≤ b.2).drop drop_n).foldl (fun t e => t.insert e.1 e.2) ∅

/-- Drop the buckets before the window, and keys of the oldest bucket if there are too many. -/
def evictExpired (c : TimeBucketedCounter K) (now : Timestamp) : TimeBucketedCounter K :=
  let buckets := c.buckets.dropWhile fun b => b.1 < cutoffFor c.window now
  let total_keys := (buckets.map fun b => b.2.size).sum
  match c.capacity, buckets with
  | some capacity, (ts, oldest) :: rest =>
    if total_keys > capacity then
      { c with buckets := (ts, dropLowest oldest (total_keys - capacity)) :: rest }
    else { c with buckets := buckets }
  | _, _ => { c with buckets := buckets }

/-- Count an event in the newest bucket, if that is the bucket of its time, or in a new one. -/
def bump (c : TimeBucketedCounter K) (key : K) (now : Timestamp) : TimeBucketedCounter K :=
  let c := c.evictExpired now
  let start := bucketStartFor c.bucket_width now
  match c.buckets.getLast? with
  | some (ts, last) =>
    if ts = start then
      { c with buckets := c.buckets.dropLast ++ [(ts, last.addWith (· + ·) key 1)] }
    else { c with buckets := c.buckets ++ [(start, (∅ : Table K (BitVec 64)).insert key 1)] }
  | none => { c with buckets := c.buckets ++ [(start, (∅ : Table K (BitVec 64)).insert key 1)] }

/-- Add the counts to the bucket that starts then. -/
def addCounts (ts : Timestamp) (counts : Table K (BitVec 64)) :
    List (Timestamp × Table K (BitVec 64)) → List (Timestamp × Table K (BitVec 64))
  | [] => []
  | b :: buckets =>
    if b.1 = ts then (b.1, b.2.mergeWith (· + ·) counts) :: buckets else b :: addCounts ts counts buckets

/-- Insert a bucket before the first one that is later. -/
def insertBucket (ts : Timestamp) (counts : Table K (BitVec 64)) :
    List (Timestamp × Table K (BitVec 64)) → List (Timestamp × Table K (BitVec 64))
  | [] => [(ts, counts)]
  | b :: buckets =>
    if b.1 > ts then (ts, counts) :: b :: buckets else b :: insertBucket ts counts buckets

def mergeBucket (buckets : List (Timestamp × Table K (BitVec 64)))
    (b : Timestamp × Table K (BitVec 64)) : List (Timestamp × Table K (BitVec 64)) :=
  if buckets.any (·.1 = b.1) then addCounts b.1 b.2 buckets else insertBucket b.1 b.2 buckets

/-- Merge an instance with the same parameters. -/
def merge (c other : TimeBucketedCounter K) : TimeBucketedCounter K :=
  { c with buckets := other.buckets.foldl mergeBucket c.buckets }

/-! ## Queries -/

def inWindow (c : TimeBucketedCounter K) (now : Timestamp) : List (Timestamp × Table K (BitVec 64)) :=
  c.buckets.filter fun b => cutoffFor c.window now ≤ b.1

def count (c : TimeBucketedCounter K) (key : K) (now : Timestamp) : BitVec 64 :=
  ((c.inWindow now).filterMap fun b => b.2.lookup key).foldl (· + ·) 0

def entriesAbove (c : TimeBucketedCounter K) (threshold : BitVec 64) (now : Timestamp) :
    Table K (BitVec 64) :=
  let totals : Table K (BitVec 64) :=
    (c.inWindow now).foldl (fun totals b => totals.mergeWith (· + ·) b.2) ∅
  totals.retain fun _ c => threshold ≤ c

def len (c : TimeBucketedCounter K) : ℕ := (c.buckets.map fun b => b.2.size).sum

def isEmpty (c : TimeBucketedCounter K) : Bool := c.buckets.all fun b => b.2.size = 0

/-! ## What the queries see -/

/-- The counts of two buckets put together. -/
def combine (a b : K → Option (BitVec 64)) : K → Option (BitVec 64) :=
  fun k => Option.merge (· + ·) (a k) (b k)

instance : Std.Commutative (combine (K := K)) :=
  ⟨fun a b => funext fun k => Std.Commutative.comm (a k) (b k)⟩

instance : Std.Associative (combine (K := K)) :=
  ⟨fun a b c => funext fun k => Std.Associative.assoc (a k) (b k) (c k)⟩

/-- The counts of the keys of each bucket. -/
def shapesOf (buckets : List (Timestamp × Table K (BitVec 64))) :
    List (Timestamp × (K → Option (BitVec 64))) :=
  buckets.map fun b => (b.1, b.2.lookup)

omit [DecidableEq K] in
theorem combine_none (f : K → Option (BitVec 64)) : combine (fun _ => none) f = f := by
  funext k
  exact Option.merge_none_left

variable {buckets : List (Timestamp × Table K (BitVec 64))}

/-- Merging a bucket is an update of the series of buckets. -/
theorem shapesOf_mergeBucket (h : Series.Ordered buckets) (b : Timestamp × Table K (BitVec 64)) :
    shapesOf (mergeBucket buckets b) =
      upsert (fun _ => none) (combine · b.2.lookup) b.1 (shapesOf buckets) := by
  induction buckets with
  | nil =>
    exact congrArg (fun s => [(b.1, s)]) (combine_none b.2.lookup).symm
  | cons a buckets ih =>
    obtain ⟨hfr, hrs⟩ := pairwise_cons.mp h
    have hcs : shapesOf (a :: buckets) = (a.1, a.2.lookup) :: shapesOf buckets := rfl
    rw [hcs, upsert, mergeBucket, any_cons]
    rcases lt_trichotomy a.1 b.1 with hlt | heq | hgt
    · -- the bucket comes later
      have hne : decide (a.1 = b.1) = false := decide_eq_false hlt.ne
      have hmr : (if buckets.any (·.1 = b.1) then addCounts b.1 b.2 (a :: buckets)
          else insertBucket b.1 b.2 (a :: buckets)) = a :: mergeBucket buckets b := by
        rw [addCounts, if_neg hlt.ne, insertBucket, if_neg hlt.not_gt, mergeBucket]
        split_ifs <;> rfl
      rw [if_pos hlt, hne, Bool.false_or, hmr, ← ih hrs]
      rfl
    · have hlk : (a.2.mergeWith (· + ·) b.2).lookup = combine a.2.lookup b.2.lookup := by
        funext k
        exact Table.lookup_mergeWith
      rw [if_neg heq.not_lt, if_pos heq, decide_eq_true heq, addCounts,
        if_pos heq, ← hlk, heq]
      rfl
    · -- no bucket starts then
      have hany : buckets.any (·.1 = b.1) = false := by
        rw [any_eq_false]
        intro c hc
        simpa using (hgt.trans (hfr c hc)).ne'
      have hne : decide (a.1 = b.1) = false := decide_eq_false hgt.ne'
      rw [if_neg hgt.not_gt, if_neg hgt.ne', hne, hany,
        insertBucket, if_pos hgt, combine_none]
      rfl

theorem ordered_iff :
    Series.Ordered (shapesOf buckets) ↔ Series.Ordered buckets := pairwise_map

/-- Merging puts the counts of the buckets together. -/
theorem shapesOf_merge (h : Series.Ordered buckets)
    (others : List (Timestamp × Table K (BitVec 64))) :
    shapesOf (others.foldl mergeBucket buckets) =
      upsertAll (fun _ => none) (fun b mine => combine mine b) (shapesOf buckets)
        (shapesOf others) := by
  induction others generalizing buckets with
  | nil => rfl
  | cons b others ih =>
    have hstp := shapesOf_mergeBucket h b
    have hor : Series.Ordered (mergeBucket buckets b) := by
      rw [← ordered_iff, hstp]
      exact ordered_upsert (ordered_iff.mpr h) _ _ _
    rw [foldl_cons, ih hor, hstp]
    rfl

theorem find_shapesOf_merge {c other : TimeBucketedCounter K} (h : Series.Ordered c.buckets)
    (h' : Series.Ordered other.buckets) (t : Timestamp) :
    find (shapesOf (c.merge other).buckets) t =
      Option.merge combine (find (shapesOf c.buckets) t)
        (find (shapesOf other.buckets) t) := by
  rw [merge, shapesOf_merge h, find_upsertAll (ordered_iff.mpr h) _ _ (ordered_iff.mpr h')]
  cases find (shapesOf other.buckets) t with
  | none => rw [Option.merge_none_right]
  | some b =>
    cases find (shapesOf c.buckets) t with
    | none =>
      exact congrArg some (combine_none b)
    | some a => rfl

def oneEvent (key : K) : K → Option (BitVec 64) := fun k => if k = key then some 1 else none

theorem lookup_addWith_one (t : Table K (BitVec 64)) (key : K) :
    (t.addWith (· + ·) key 1).lookup = combine t.lookup (oneEvent key) := by
  funext k
  rw [Table.lookup_addWith, combine, oneEvent]
  split_ifs with hk
  · rw [hk]
  · rw [Option.merge_none_right]

theorem lookup_insert_one (key : K) :
    ((∅ : Table K (BitVec 64)).insert key 1).lookup = combine (fun _ => none) (oneEvent key) := by
  rw [combine_none]
  funext k
  rw [Table.lookup_insert_eq]
  rfl

variable {now : Timestamp}

/-- While time does not go back, an event is an update of the series of buckets. -/
theorem shapesOf_bump {c : TimeBucketedCounter K} (h : Series.Ordered c.buckets)
    (hcp : c.capacity = none)
    (hle : ∀ b ∈ c.buckets, b.1 ≤ bucketStartFor c.bucket_width now) (key : K) :
    shapesOf (c.bump key now).buckets =
      upsert (fun _ => none) (combine · (oneEvent key)) (bucketStartFor c.bucket_width now)
        ((shapesOf c.buckets).filter fun b => cutoffFor c.window now ≤ b.1) := by
  have het : c.evictExpired now =
      { c with buckets := c.buckets.filter fun b => cutoffFor c.window now ≤ b.1 } := by
    rw [evictExpired, hcp, dropWhile_lt h]
  have hfl : (shapesOf c.buckets).filter (fun b => cutoffFor c.window now ≤ b.1) =
      shapesOf (c.buckets.filter fun b => cutoffFor c.window now ≤ b.1) := by
    rw [shapesOf, filter_map]
    rfl
  have hor := ordered_filter h fun b => cutoffFor c.window now ≤ b.1
  have hle' : ∀ b ∈ c.buckets.filter fun b => cutoffFor c.window now ≤ b.1,
      b.1 ≤ bucketStartFor c.bucket_width now := fun b hb => hle b (mem_of_mem_filter hb)
  rw [bump, het, hfl]
  generalize c.buckets.filter (fun b => cutoffFor c.window now ≤ b.1) = buckets at hor hle'
  generalize bucketStartFor c.bucket_width now = start at hle'
  have hnew : shapesOf [(start, (∅ : Table K (BitVec 64)).insert key 1)] =
      [(start, combine (fun _ => none) (oneEvent key))] :=
    congrArg (fun s => [(start, s)]) (lookup_insert_one key)
  rcases eq_nil_or_concat buckets with rfl | ⟨init, ⟨ts, last⟩, rfl⟩
  · exact hnew
  · rw [concat_eq_append] at hor hle' ⊢
    obtain ⟨-, -, hin⟩ := pairwise_append.mp hor
    have hts : ts ≤ start := hle' (ts, last) (mem_append.mpr (.inr mem_cons_self))
    have hlt : ∀ b ∈ shapesOf init, b.1 < start := by
      intro b hb
      obtain ⟨a, ha, rfl⟩ := mem_map.mp hb
      exact (hin a ha (ts, last) mem_cons_self).trans_le hts
    have hap : ∀ l l' : List (Timestamp × Table K (BitVec 64)),
        shapesOf (l ++ l') = shapesOf l ++ shapesOf l' := fun _ _ => map_append
    rw [getLast?_concat, dropLast_concat, hap, upsert_append hlt]
    dsimp only
    have hls : shapesOf [(ts, last)] = [(ts, last.lookup)] := rfl
    rw [hls, upsert]
    by_cases heq : ts = start
    · subst heq
      rw [if_pos rfl, if_neg (lt_irrefl _), if_pos rfl, hap, ← lookup_addWith_one]
      rfl
    · rw [if_neg heq, if_pos (lt_of_le_of_ne hts heq), hap, hap, hnew, append_assoc]
      rfl

/-- Two instances answer every query about the window that ends at a time alike. -/
structure AlikeAt (c c' : TimeBucketedCounter K) (now : Timestamp) : Prop where
  count : ∀ key, c.count key now = c'.count key now
  entriesAbove : ∀ threshold key,
    (c.entriesAbove threshold now).lookup key = (c'.entriesAbove threshold now).lookup key

/-- What the queries answer depends on the counts in the window. -/
theorem alikeAt_of_shapes {c c' : TimeBucketedCounter K} (hwn : c.window = c'.window)
    (h : (shapesOf c.buckets).filter (fun b => cutoffFor c.window now ≤ b.1) =
      (shapesOf c'.buckets).filter fun b => cutoffFor c.window now ≤ b.1) : c.AlikeAt c' now := by
  have hsh : shapesOf (c.inWindow now) = shapesOf (c'.inWindow now) := by
    rw [shapesOf, shapesOf, filter_map, filter_map] at h
    rw [inWindow, inWindow, ← hwn]
    exact h
  have hlk : ∀ key, (c.inWindow now).map (fun b => b.2.lookup key) =
      (c'.inWindow now).map fun b => b.2.lookup key := by
    intro key
    have hkey := congrArg (List.map fun b => b.2 key) hsh
    rw [shapesOf, shapesOf, map_map, map_map] at hkey
    exact hkey
  refine ⟨fun key => ?_, fun threshold key => ?_⟩
  · have hvl := congrArg (filterMap id) (hlk key)
    rw [filterMap_map, filterMap_map] at hvl
    exact congrArg (List.foldl (· + ·) 0) hvl
  · rw [entriesAbove, entriesAbove, Table.lookup_retain, Table.lookup_retain,
      Table.lookup_foldl_mergeWith,
      Table.lookup_foldl_mergeWith, hlk]

end TimeBucketedCounter

end Flowscope.Correlate
