import Flowscope.Correlate.Bucketed
import Flowscope.Correlate.Sketch

/-!
# Sharding is transparent

Observations are split over shards, and the shards are merged in some order. The sketches that come out
are those of one instance that was fed all observations. `RollingRate` and `TimeBucketedCounter` answer
the queries about a window like one instance, if time does not go back and the window ends no earlier
than the last observation: a shard forgets a bucket only when it is before the window of one of its own
observations, and then it is before the later window, too. But how many buckets and entries are stored
can be seen to differ: a shard that heard nothing for a while keeps buckets that one instance would have
dropped.
-/

namespace Flowscope.Correlate

open List TimeBucketedCounter CountMinSketch

variable {K V ι : Type}

/-- The observations come in order of time, none of them after `Timestamp::MAX`. -/
structure InOrder {α : Type} (time : α → Timestamp) (l : List α) : Prop where
  ordered : l.Pairwise fun x y => (time x).toDuration ≤ (time y).toDuration
  representable : ∀ x ∈ l, (time x).Representable

theorem InOrder.sublist {α : Type} {time : α → Timestamp} {l l' : List α} (h : InOrder time l)
    (hsub : l'.Sublist l) : InOrder time l' :=
  ⟨h.ordered.sublist hsub, fun x hx => h.representable x (hsub.subset hx)⟩

/-- The last observation comes after those before it. -/
theorem InOrder.last {α : Type} {time : α → Timestamp} {l : List α} {x : α}
    (h : InOrder time (l ++ [x])) :
    InOrder time l ∧ (∀ y ∈ l, (time y).toDuration ≤ (time x).toDuration) ∧ (time x).Representable := by
  obtain ⟨hl, -, hx⟩ := pairwise_append.mp h.ordered
  exact ⟨h.sublist (sublist_append_left l [x]), fun y hy => hx y hy x mem_cons_self,
    h.representable x (mem_append.mpr (.inr mem_cons_self))⟩

/-! ## Rolling rates -/

namespace RollingRate

section

variable [DecidableEq K] [AddCommMonoid V]

def oneValue (k : K) (v : V) : Shape K V := (fun j => if j = k then some v else none, none)

theorem shape_add (b : Bucket K V) (k : K) (v : V) :
    (b.add k v none).1.shape = b.shape.combine (oneValue k v) ∧ (b.add k v none).2 = false := by
  have hrm : Room (none : Option ℕ) (insert k b.sums.keySet) := fun _ h => nomatch h
  rw [Bucket.add_of_room hrm (Finset.subset_insert _ _) (Finset.mem_insert_self _ _)]
  refine ⟨?_, rfl⟩
  rw [Bucket.shape, Bucket.shape, Shape.combine, oneValue, Option.merge_none_right]
  refine congrArg (fun f => (f, b.other)) (funext fun j => ?_)
  rw [Table.lookup_addWith]
  dsimp only
  split_ifs with hj
  · rw [hj]
  · rw [Option.merge_none_right]

/-- An instance that was fed keys and values with their times. -/
def feed (window bucket_width : Duration) (l : List (K × V × Timestamp)) : RollingRate K V :=
  l.foldl (fun r x => r.record x.1 x.2.1 x.2.2) (newUnbounded window bucket_width)

/-- An instance without a bound that has gathered observations. -/
structure Has (window bucket_width : Duration) (r : RollingRate K V) (m : Multiset (K × V × Timestamp)) :
    Prop where
  window_eq : r.window = window
  bucket_width_eq : r.bucket_width = bucket_width
  max_keys_eq : r.max_keys = none
  overflowed_eq : r.overflowed = 0
  gathers : Series.Gathers (fun x : K × V × Timestamp => bucketStartFor bucket_width x.2.2)
    (fun x => cutoffFor window x.2.2) (fun x => oneValue x.1 x.2.1) Shape.combine r.shapes m

variable {window bucket_width : Duration} {r r' : RollingRate K V} {m m' : Multiset (K × V × Timestamp)}
  {now : Timestamp}

section

variable (h : Has window bucket_width r m) (hm : ∀ x ∈ m, x.2.2.toDuration ≤ now.toDuration)
  (hnow : now.Representable)
include h hm hnow

/-- While time does not go back, no bucket is dropped for being too late. -/
theorem Has.keep : r.keep now = r.buckets.filter fun b => cutoffFor window now ≤ b.1 := by
  have hlt : ∀ b ∈ r.buckets, ¬ b.1.toDuration > min (now.toDuration + r.window) Duration.max := by
    intro b hb
    obtain ⟨x, hx, hsr, -⟩ := h.gathers.starts (b.1, b.2.shape) (mem_map_of_mem hb)
    have hx' : x.2.2.Representable := (hm x hx).trans_lt hnow
    have hle : b.1.toDuration ≤ now.toDuration := by
      rw [← hsr]
      exact (toDuration_bucketStartFor_le hx').trans (hm x hx)
    have hmax : now.toDuration ≤ Duration.max := (hnow.trans (by decide)).le
    rw [not_lt]
    exact le_min (hle.trans (Nat.le_add_right _ _)) (hle.trans hmax)
  rw [RollingRate.keep, Series.dropWhile_lt r.ordered, h.window_eq]
  rw [h.window_eq] at hlt
  rw [rdropWhile_eq_self_iff]
  intro hne
  have hmem := mem_of_mem_filter (getLast_mem hne)
  simpa using hlt _ hmem

theorem Has.record {k : K} {v : V} :
    Has window bucket_width (r.record k v now) ((k, v, now) ::ₘ m) := by
  have hkp := h.keep hm hnow
  have hsh : (r.record k v now).shapes =
      Series.upsert Bucket.new.shape (Shape.combine · (oneValue k v)) (bucketStartFor bucket_width now)
        (r.shapes.filter fun b => cutoffFor window now ≤ b.1) := by
    have hmap := Series.map_upsert Bucket.shape (fun b => (b.add k v none).1)
      (Shape.combine · (oneValue k v)) (fun b => (shape_add b k v).1) Bucket.new
      (bucketStartFor bucket_width now) (r.buckets.filter fun b => cutoffFor window now ≤ b.1)
    rw [RollingRate.record, shapes, shapes, filter_map]
    dsimp only
    rw [hkp, h.max_keys_eq, h.bucket_width_eq]
    exact hmap
  refine ⟨h.window_eq, h.bucket_width_eq, h.max_keys_eq, ?_, ?_⟩
  · have hov : (r.record k v now).overflowed = r.overflowed := by
      rw [RollingRate.record]
      dsimp only
      rw [h.max_keys_eq, (shape_add _ k v).2]
      exact if_neg Bool.false_ne_true
    rw [hov, h.overflowed_eq]
  · rw [hsh]
    exact h.gathers.observe (x := (k, v, now))
      rfl (fun _ _ => rfl) (Shape.combine_new _)

end

theorem has_feed (window bucket_width : Duration) {l : List (K × V × Timestamp)}
    (h : InOrder (fun x => x.2.2) l) :
    Has window bucket_width (feed window bucket_width l) (l : Multiset (K × V × Timestamp)) := by
  induction l using reverseRecOn with
  | nil => exact ⟨rfl, rfl, rfl, rfl, Series.gathers_nil⟩
  | append_singleton l x ih =>
    obtain ⟨hl, hls, hx⟩ := h.last
    have hcs : ((l ++ [x] : List _) : Multiset (K × V × Timestamp)) = x ::ₘ (l : Multiset _) :=
      Multiset.coe_eq_coe.mpr (perm_append_singleton x l)
    rw [feed, foldl_append, hcs]
    exact (ih hl).record hls hx

variable (h : Has window bucket_width r m)
include h

theorem Has.merge (h' : Has window bucket_width r' m') :
    Has window bucket_width (r.merge r') (m + m') := by
  have hrm : ∀ t, Room r.max_keys (r.keysAt t ∪ r'.keysAt t) := by
    rw [h.max_keys_eq]
    exact fun _ _ hn => nomatch hn
  refine ⟨h.window_eq, h.bucket_width_eq, h.max_keys_eq, ?_, ?_⟩
  · rw [overflowed_merge hrm, h.overflowed_eq, h'.overflowed_eq]
    rfl
  · exact h.gathers.merge h'.gathers (ordered_shapes _) (find_shapes_merge hrm)

/-- Instances that have gathered the same observations answer alike from the last of them on. -/
theorem Has.alikeAt (h' : Has window bucket_width r' m)
    (hm : ∀ x ∈ m, x.2.2.toDuration ≤ now.toDuration) (hnow : now.Representable) :
    r.AlikeAt r' now := by
  apply alikeAt_of_shapes (h.window_eq.trans h'.window_eq.symm)
  rw [h.window_eq]
  exact h.gathers.filter_eq h'.gathers fun x hx => cutoffFor_mono hnow (hm x hx)

theorem Has.isEmpty_iff : r.isEmpty = true ↔ m = 0 := by
  -- each bucket has a key
  have hkey : ∀ e ∈ r.shapes, ∃ k v, e.2.1 k = some v := by
    refine h.gathers.forall_value (P := fun s => ∃ k v, s.1 k = some v)
      (fun x => ⟨x.1, x.2.1, if_pos rfl⟩) ?_
    rintro d b ⟨k, v, hv⟩
    rw [Shape.combine]
    dsimp only
    refine ⟨k, ?_⟩
    rw [hv]
    cases d.1 k <;> exact ⟨_, rfl⟩
  have hnil : r.isEmpty = true ↔ r.shapes = [] := by
    rw [isEmpty, all_eq_true, shapes, map_eq_nil_iff, eq_nil_iff_forall_not_mem]
    refine forall_congr' fun b => ⟨fun hem hb => ?_, fun hnot hb => absurd hb hnot⟩
    obtain ⟨k, v, hv⟩ := hkey _ (mem_map_of_mem hb)
    exact Table.size_ne_zero hv (of_decide_eq_true (hem hb)).1
  rw [hnil, h.gathers.eq_nil_iff]

end

end RollingRate

/-! ## Windowed counters -/

namespace TimeBucketedCounter

section

variable [DecidableEq K]

/-- An instance that was told of events with their times. -/
def feed (window bucket_width : Duration) (l : List (K × Timestamp)) : TimeBucketedCounter K :=
  l.foldl (fun c x => c.bump x.1 x.2) (newUnbounded window bucket_width)

/-- An instance without a bound that has gathered events. -/
structure Has (window bucket_width : Duration) (c : TimeBucketedCounter K)
    (m : Multiset (K × Timestamp)) : Prop where
  window_eq : c.window = window
  bucket_width_eq : c.bucket_width = bucket_width
  capacity_eq : c.capacity = none
  gathers : Series.Gathers (fun x : K × Timestamp => bucketStartFor bucket_width x.2)
    (fun x => cutoffFor window x.2) (fun x => oneEvent x.1) combine (shapesOf c.buckets) m

variable {window bucket_width : Duration} {c c' : TimeBucketedCounter K} {m m' : Multiset (K × Timestamp)}
  {now : Timestamp}

theorem Has.bump (h : Has window bucket_width c m) {key : K}
    (hm : ∀ x ∈ m, x.2.toDuration ≤ now.toDuration) (hnow : now.Representable) :
    Has window bucket_width (c.bump key now) ((key, now) ::ₘ m) := by
  have hle : ∀ b ∈ c.buckets, b.1 ≤ bucketStartFor c.bucket_width now := by
    intro b hb
    obtain ⟨x, hx, hsr, -⟩ := h.gathers.starts (b.1, b.2.lookup) (mem_map_of_mem hb)
    have hx' : x.2.Representable := (hm x hx).trans_lt hnow
    rw [← hsr, h.bucket_width_eq]
    exact bucketStartFor_mono hx' hnow (hm x hx)
  have hsh := shapesOf_bump (ordered_iff.mp h.gathers.ordered) h.capacity_eq hle key
  have hfl : (c.bump key now).window = c.window ∧ (c.bump key now).bucket_width = c.bucket_width ∧
      (c.bump key now).capacity = c.capacity := by
    have het : c.evictExpired now = { c with
        buckets := c.buckets.dropWhile fun b => b.1 < cutoffFor c.window now } := by
      rw [evictExpired, h.capacity_eq]
    rw [TimeBucketedCounter.bump, het]
    split
    · split_ifs <;> exact ⟨rfl, rfl, rfl⟩
    · exact ⟨rfl, rfl, rfl⟩
  refine ⟨hfl.1.trans h.window_eq, hfl.2.1.trans h.bucket_width_eq, hfl.2.2.trans h.capacity_eq, ?_⟩
  rw [hsh, h.window_eq, h.bucket_width_eq]
  exact h.gathers.observe (x := (key, now))
    rfl (fun _ _ => rfl) (combine_none _)

theorem has_feed (window bucket_width : Duration) {l : List (K × Timestamp)}
    (h : InOrder (fun x => x.2) l) :
    Has window bucket_width (feed window bucket_width l) (l : Multiset (K × Timestamp)) := by
  induction l using reverseRecOn with
  | nil => exact ⟨rfl, rfl, rfl, Series.gathers_nil⟩
  | append_singleton l x ih =>
    obtain ⟨hl, hls, hx⟩ := h.last
    have hcs : ((l ++ [x] : List _) : Multiset (K × Timestamp)) = x ::ₘ (l : Multiset _) :=
      Multiset.coe_eq_coe.mpr (perm_append_singleton x l)
    rw [feed, foldl_append, hcs]
    exact (ih hl).bump hls hx

variable (h : Has window bucket_width c m)
include h

theorem Has.merge (h' : Has window bucket_width c' m') :
    Has window bucket_width (c.merge c') (m + m') := by
  have hor := ordered_iff.mp h.gathers.ordered
  have hor' := ordered_iff.mp h'.gathers.ordered
  refine ⟨h.window_eq, h.bucket_width_eq, h.capacity_eq, ?_⟩
  refine h.gathers.merge h'.gathers ?_ (find_shapesOf_merge hor hor')
  rw [TimeBucketedCounter.merge, shapesOf_merge hor]
  exact Series.ordered_upsertAll h.gathers.ordered _ _ _

/-- Instances that have gathered the same events answer alike from the last of them on. -/
theorem Has.alikeAt (h' : Has window bucket_width c' m)
    (hm : ∀ x ∈ m, x.2.toDuration ≤ now.toDuration) (hnow : now.Representable) :
    c.AlikeAt c' now := by
  apply alikeAt_of_shapes (h.window_eq.trans h'.window_eq.symm)
  rw [h.window_eq]
  exact h.gathers.filter_eq h'.gathers fun x hx => cutoffFor_mono hnow (hm x hx)

theorem Has.isEmpty_iff : c.isEmpty = true ↔ m = 0 := by
  have hkey : ∀ e ∈ shapesOf c.buckets, ∃ k v, e.2 k = some v := by
    refine h.gathers.forall_value (P := fun s => ∃ k v, s k = some v) (fun x => ⟨x.1, 1, if_pos rfl⟩) ?_
    rintro d b ⟨k, v, hv⟩
    refine ⟨k, ?_⟩
    rw [combine, hv]
    cases d k <;> exact ⟨_, rfl⟩
  have hnil : c.isEmpty = true ↔ shapesOf c.buckets = [] := by
    rw [isEmpty, all_eq_true, shapesOf, map_eq_nil_iff, eq_nil_iff_forall_not_mem]
    refine forall_congr' fun b => ⟨fun hem hb => ?_, fun hnot hb => absurd hb hnot⟩
    obtain ⟨k, v, hv⟩ := hkey _ (mem_map_of_mem hb)
    exact Table.size_ne_zero hv (of_decide_eq_true (hem hb))
  rw [hnil, h.gathers.eq_nil_iff]

end

end TimeBucketedCounter

/-! ## All six -/

open Sharding (Covers shard)

/-- Shards that are merged in any order are, for the sketches, the same as one instance, and for the
windowed structures they answer like it: queries about a window that ends at a time no earlier than any
observation, the count of refused keys, and whether anything is there. An estimate of `CountMinSketch` is
no less than the true count, up to the greatest value of a counter. -/
theorem sharding_transparent {K ι : Type} [DecidableEq K] [DecidableEq ι] (hash : K → BitVec 64)
    (tree : MergeTree ι) :
    (∀ depth width (observed : List ((K × Counter (2^32 - 1)) × ι)), Covers tree observed →
        (tree.eval CountMinSketch.merge fun i => .feed hash depth width (shard observed i)) =
          .feed hash depth width (observed.map Prod.fst)) ∧
      (∀ bits hashes (observed : List (K × ι)), Covers tree observed →
        (tree.eval BloomFilter.merge fun i => .feed hash bits hashes (shard observed i)) =
          .feed hash bits hashes (observed.map Prod.fst)) ∧
      (∀ cells hashes (observed : List (K × ι)), Covers tree observed →
        (tree.eval CountingBloomFilter.merge fun i => .feed hash cells hashes (shard observed i)) =
          .feed hash cells hashes (observed.map Prod.fst)) ∧
      (∀ precision (observed : List (K × ι)), Covers tree observed →
        (tree.eval HyperLogLog.merge fun i => .feed hash precision (shard observed i)) =
          .feed hash precision (observed.map Prod.fst)) ∧
      (∀ window bucket_width (observed : List ((K × BitVec 64 × Timestamp) × ι)),
        Covers tree observed → InOrder (fun x => x.2.2) (observed.map Prod.fst) →
        ∀ merged one, merged = (tree.eval RollingRate.merge fun i =>
            .feed window bucket_width (shard observed i)) →
          one = .feed window bucket_width (observed.map Prod.fst) →
          (∀ now : Timestamp, now.Representable →
              (∀ x ∈ observed, x.1.2.2.toDuration ≤ now.toDuration) → merged.AlikeAt one now) ∧
            merged.overflowed = one.overflowed ∧ merged.isEmpty = one.isEmpty) ∧
      (∀ window bucket_width (observed : List ((K × Timestamp) × ι)),
        Covers tree observed → InOrder (fun x => x.2) (observed.map Prod.fst) →
        ∀ merged one, merged = (tree.eval TimeBucketedCounter.merge fun i =>
            .feed window bucket_width (shard observed i)) →
          one = .feed window bucket_width (observed.map Prod.fst) →
          (∀ now : Timestamp, now.Representable →
              (∀ x ∈ observed, x.1.2.toDuration ≤ now.toDuration) → merged.AlikeAt one now) ∧
            merged.isEmpty = one.isEmpty) ∧
      ∀ depth width (observed : List (K × Counter (2^32 - 1))) x,
        min (CountMinSketch.trueCount x observed) (2^32 - 1) ≤
          (CountMinSketch.feed hash depth width observed).estimate (hash x) := by
  refine ⟨fun depth width observed => eval_eq_feed hash depth width,
    fun bits hashes observed => BloomFilter.eval_eq_feed hash bits hashes,
    fun cells hashes observed => CountingBloomFilter.eval_eq_feed hash cells hashes,
    fun precision observed => HyperLogLog.eval_eq_feed hash precision, ?_, ?_,
    le_estimate hash⟩
  · rintro window bucket_width observed hcv hod merged one rfl rfl
    have hone := RollingRate.has_feed window bucket_width hod
    have hmr := Sharding.eval_shards
      (fun _ _ _ _ h h' => h.merge h') hcv fun i =>
        RollingRate.has_feed window bucket_width (hod.sublist (Sharding.shard_sublist observed i))
    refine ⟨fun now hnow hle => ?_, ?_, ?_⟩
    · refine hmr.alikeAt hone (fun x hx => ?_) hnow
      obtain ⟨y, hy, rfl⟩ := mem_map.mp (Multiset.mem_coe.mp hx)
      exact hle y hy
    · rw [hmr.overflowed_eq, hone.overflowed_eq]
    · rw [Bool.eq_iff_iff, hmr.isEmpty_iff, hone.isEmpty_iff]
  · rintro window bucket_width observed hcv hod merged one rfl rfl
    have hone := has_feed window bucket_width hod
    have hmr := Sharding.eval_shards
      (fun _ _ _ _ h h' => h.merge h') hcv fun i =>
        has_feed window bucket_width
        (hod.sublist (Sharding.shard_sublist observed i))
    refine ⟨fun now hnow hle => ?_, ?_⟩
    · refine hmr.alikeAt hone (fun x hx => ?_) hnow
      obtain ⟨y, hy, rfl⟩ := mem_map.mp (Multiset.mem_coe.mp hx)
      exact hle y hy
    · rw [Bool.eq_iff_iff, hmr.isEmpty_iff, hone.isEmpty_iff]

/-- Two observations that are further apart than a window, on two shards. -/
def farApart : List ((ℕ × BitVec 64 × Timestamp) × Bool) :=
  [((1, 5, ⟨0, 0⟩), false), ((2, 7, ⟨0, 100⟩), true)]

/-- The same as events without a value. -/
def farApartEvents : List ((ℕ × Timestamp) × Bool) := [((1, ⟨0, 0⟩), false), ((2, ⟨0, 100⟩), true)]

def twoShards : MergeTree Bool := .node (.leaf true) (.leaf false)

theorem sharding_transparent_farApart :
    Covers twoShards farApart ∧ InOrder (fun x => x.2.2) (farApart.map Prod.fst) ∧
      RollingRate.AlikeAt
        (twoShards.eval RollingRate.merge fun i => .feed 10 10 (shard farApart i))
        (.feed 10 10 (farApart.map Prod.fst)) ⟨0, 105⟩ := by
  have hcv : Covers twoShards farApart := ⟨by decide, by decide⟩
  have hod : InOrder (fun x : ℕ × BitVec 64 × Timestamp => x.2.2) (farApart.map Prod.fst) :=
    ⟨by decide, by unfold Timestamp.Representable; decide⟩
  have hall := (sharding_transparent (fun k : ℕ => BitVec.ofNat 64 k) twoShards).2.2.2.2.1
  refine ⟨hcv, hod, (hall 10 10 farApart hcv hod _ _ rfl rfl).1 ⟨0, 105⟩ ?_ (by decide)⟩
  unfold Timestamp.Representable
  decide

/-- The shard that heard nothing after the first observation keeps it. -/
theorem sharding_storage_differs :
    ((twoShards.eval RollingRate.merge fun i => .feed 10 10 (shard farApart i)).bucketCount = 2 ∧
        (RollingRate.feed 10 10 (farApart.map Prod.fst)).bucketCount = 1) ∧
      ((twoShards.eval RollingRate.merge fun i => .feed 10 10 (shard farApart i)).storedEntries = 2 ∧
        (RollingRate.feed 10 10 (farApart.map Prod.fst)).storedEntries = 1) ∧
      (twoShards.eval TimeBucketedCounter.merge fun i => .feed 10 10 (shard farApartEvents i)).len = 2 ∧
        (TimeBucketedCounter.feed 10 10 (farApartEvents.map Prod.fst)).len = 1 := by
  decide +kernel

end Flowscope.Correlate
