import Flowscope.Correlate.Bucketed
import Mathlib.Data.Finset.Card

/-!
# The capacity of windowed counters

`TimeBucketedCounter` and `TimeBucketedSet` (`src/correlate/set.rs`) are told how many keys to hold.
An update that finds more takes keys from the oldest bucket, and from no other. So the capacity is kept
while the updates that follow a bucket in the window bring no more keys than that (`len_le_capacity`),
but a newest bucket grows without bound once the oldest one is empty (`len_unbounded`).
-/

namespace Flowscope.Correlate

open List Table TimeBucketedCounter

variable {K V : Type} [DecidableEq K] {f : V → V → V} {key : K} {v : V} {t : Table K V}
  {buckets : List (Timestamp × Table K V)}

/-- The keys of all buckets. -/
def keyCount (buckets : List (Timestamp × Table K V)) : ℕ := (buckets.map fun b => b.2.size).sum

/-- Take the first keys by `le` from the oldest bucket, as many as there are too many. -/
def trimOldest (le : V → V → Prop) [DecidableRel le] (capacity : Option ℕ)
    (buckets : List (Timestamp × Table K V)) : List (Timestamp × Table K V) :=
  match capacity, buckets with
  | some capacity, (ts, oldest) :: rest =>
    if keyCount buckets > capacity then
      (ts, ((oldest.toList.insertionSort fun a b => le a.2 b.2).drop (keyCount buckets - capacity)).foldl
        (fun t e => t.insert e.1 e.2) ∅) :: rest
    else buckets
  | _, _ => buckets

/-- Add to the newest bucket, if it starts then, or to a new one. -/
def addLatest (f : V → V → V) (start : Timestamp) (key : K) (v : V)
    (buckets : List (Timestamp × Table K V)) : List (Timestamp × Table K V) :=
  match buckets.getLast? with
  | some (ts, last) =>
    if ts = start then buckets.dropLast ++ [(ts, last.addWith f key v)]
    else buckets ++ [(start, (∅ : Table K V).insert key v)]
  | none => buckets ++ [(start, (∅ : Table K V).insert key v)]

structure TimeBucketedSet (K V : Type) where
  window : Duration
  bucket_width : Duration
  capacity : Option ℕ
  buckets : List (Timestamp × Table K (Finset V))

namespace TimeBucketedSet

def new (window bucket_width : Duration) (capacity : Option ℕ) : TimeBucketedSet K V :=
  ⟨window, bucket_width, capacity, []⟩

def evictExpired (s : TimeBucketedSet K V) (now : Timestamp) : TimeBucketedSet K V :=
  { s with
    buckets := trimOldest (fun a b => a.card ≤ b.card) s.capacity
      (s.buckets.dropWhile fun b => b.1 < cutoffFor s.window now) }

def insert [DecidableEq V] (s : TimeBucketedSet K V) (key : K) (value : V) (now : Timestamp) :
    TimeBucketedSet K V :=
  let s := s.evictExpired now
  { s with buckets := addLatest (· ∪ ·) (bucketStartFor s.bucket_width now) key {value} s.buckets }

def len (s : TimeBucketedSet K V) : ℕ := keyCount s.buckets

end TimeBucketedSet

theorem bump_eq (c : TimeBucketedCounter K) (key : K) (now : Timestamp) : c.bump key now =
    { c with
      buckets := addLatest (· + ·) (bucketStartFor c.bucket_width now) key 1
        (trimOldest (· ≤ ·) c.capacity
          (c.buckets.dropWhile fun b => b.1 < cutoffFor c.window now)) } := by
  obtain ⟨window, bucket_width, capacity, buckets⟩ := c
  have hev : (⟨window, bucket_width, capacity, buckets⟩ : TimeBucketedCounter K).evictExpired now =
      ⟨window, bucket_width, capacity, trimOldest (· ≤ ·) capacity
        (buckets.dropWhile fun b => b.1 < cutoffFor window now)⟩ := by
    unfold evictExpired trimOldest keyCount
    generalize buckets.dropWhile _ = live
    cases capacity with
    | none => rfl
    | some capacity =>
      cases live with
      | nil => rfl
      | cons b rest =>
        dsimp only
        split_ifs <;> rfl
  rw [bump, hev]
  unfold addLatest
  generalize trimOldest (K := K) (fun a b : BitVec 64 => a ≤ b) capacity _ = live
  cases live.getLast? with
  | none => rfl
  | some b =>
    dsimp only
    split_ifs <;> rfl

/-! ## Counting keys -/

theorem size_insert_le (t : Table K V) (key : K) (v : V) : size (t.insert key v) ≤ t.size + 1 := by
  by_cases hmem : key ∈ t
  · exact (size_insert_of_mem hmem).trans_le (Nat.le_succ _)
  · exact (size_insert_of_not_mem hmem).le

theorem size_foldl_insert_le (l : List (K × V)) (t : Table K V) :
    size (l.foldl (fun t e => t.insert e.1 e.2) t) ≤ t.size + l.length := by
  induction l generalizing t with
  | nil => exact le_rfl
  | cons e l ih =>
    have hone := size_insert_le t e.1 e.2
    rw [foldl_cons, length_cons]
    exact (ih _).trans (by omega)

/-- The others are within the capacity, so taking from the oldest is enough. -/
theorem keyCount_trimOldest_le (le : V → V → Prop) [DecidableRel le] {capacity : ℕ}
    (h : keyCount buckets.tail ≤ capacity) :
    keyCount (trimOldest le (some capacity) buckets) ≤ capacity := by
  cases buckets with
  | nil => exact Nat.zero_le _
  | cons b rest =>
    obtain ⟨ts, oldest⟩ := b
    have htot : keyCount ((ts, oldest) :: rest) = oldest.size + keyCount rest := sum_cons
    unfold trimOldest
    dsimp only
    split_ifs with hgt
    · have hle := size_foldl_insert_le ((oldest.toList.insertionSort fun a b => le a.2 b.2).drop
        (keyCount ((ts, oldest) :: rest) - capacity)) ∅
      rw [length_drop, length_insertionSort, toList, length_map] at hle
      refine (Nat.add_le_add_right hle _).trans ?_
      show 0 + (oldest.size - _) + keyCount rest ≤ capacity
      rw [tail_cons] at h
      omega
    · exact not_lt.mp hgt

theorem size_addWith_le (f : V → V → V) (t : Table K V) (key : K) (v : V) :
    size (t.addWith f key v) ≤ t.size + 1 := by
  have hput : ∀ v, size (t.put key v) ≤ t.size + 1 := by
    intro v
    unfold put
    split_ifs
    · exact (size_mapVals _ _).trans_le (Nat.le_succ _)
    · exact size_insert_le _ _ _
  unfold addWith
  split <;> exact hput _

theorem keyCount_addLatest_le (f : V → V → V) (start : Timestamp) (key : K) (v : V)
    (buckets : List (Timestamp × Table K V)) :
    keyCount (addLatest f start key v buckets) ≤ keyCount buckets + 1 := by
  have hadd : ∀ l (b : Timestamp × Table K V), keyCount (l ++ [b]) = keyCount l + b.2.size := by
    simp [keyCount]
  have hone : size ((∅ : Table K V).insert key v) = 1 := size_insert_of_not_mem (AList.notMem_empty _)
  unfold addLatest
  split
  case h_1 ts last hlast =>
    split_ifs
    · have hsz := size_addWith_le f last key v
      rw [← dropLast_append_getLast? _ hlast, hadd, dropLast_concat, hadd]
      dsimp only
      omega
    · rw [hadd, hone]
  case h_2 => rw [hadd, hone]

/-! ## Runs of updates -/

/-- The keys of the events in buckets after a start, for each bucket on its own. -/
def keysAfter (bucket_width : Duration) (events : List (K × Timestamp)) (start : Timestamp) :
    Finset (Timestamp × K) :=
  ((events.map fun e => (bucketStartFor bucket_width e.2, e.1)).filter fun e => start < e.1).toFinset

/-- Whenever an event comes, the events before it in later buckets than one that is still in the window
have no more keys than the capacity. -/
def Sparse (window bucket_width : Duration) (capacity : ℕ) (events : List (K × Timestamp)) : Prop :=
  ∀ i < events.length, ∀ e ∈ events[i]?, ∀ e' ∈ events.take i,
    cutoffFor window e.2 ≤ bucketStartFor bucket_width e'.2 →
      (keysAfter bucket_width (events.take i) (bucketStartFor bucket_width e'.2)).card ≤ capacity

/-- Time does not go back. -/
def Forward (events : List (K × Timestamp)) : Prop :=
  (∀ e ∈ events, e.2.Representable) ∧ events.Pairwise fun a b => a.2.toDuration ≤ b.2.toDuration

/-- A bucket is one of an event, and so are its keys. -/
def OfEvents (bucket_width : Duration) (events : List (K × Timestamp)) (b : Timestamp × Table K V) : Prop :=
  (∃ e ∈ events, bucketStartFor bucket_width e.2 = b.1) ∧
    ∀ key ∈ b.2, ∃ e ∈ events, bucketStartFor bucket_width e.2 = b.1 ∧ e.1 = key

/-- The buckets after some events: they are in order, and what they hold comes from the events. -/
structure Bucketed (bucket_width : Duration) (events : List (K × Timestamp))
    (buckets : List (Timestamp × Table K V)) : Prop where
  ordered : Series.Ordered buckets
  of_events : ∀ b ∈ buckets, OfEvents bucket_width events b

variable {window bucket_width : Duration} {capacity : ℕ} {events : List (K × Timestamp)}
  {now : Timestamp}

theorem mem_of_mem_foldl_insert {l : List (K × V)} (h : key ∈ l.foldl (fun t e => t.insert e.1 e.2) t) :
    key ∈ t ∨ key ∈ l.map Prod.fst := by
  induction l generalizing t with
  | nil => exact .inl h
  | cons e l ih =>
    rw [map_cons, mem_cons]
    rcases ih h with h | h
    · exact ((AList.mem_insert _).mp h).symm.imp_right .inl
    · exact .inr (.inr h)

/-- Trimming leaves the newer buckets, and some keys of the oldest. -/
theorem Bucketed.trimOldest (h : Bucketed bucket_width events buckets) (le : V → V → Prop)
    [DecidableRel le] (capacity : Option ℕ) :
    Bucketed bucket_width events (trimOldest le capacity buckets) := by
  unfold Correlate.trimOldest
  split
  case h_2 => exact h
  case h_1 capacity ts oldest rest =>
    split_ifs
    · obtain ⟨hfst, hrest⟩ := forall_mem_cons.mp h.of_events
      refine ⟨pairwise_cons.mpr (pairwise_cons.mp h.ordered), forall_mem_cons.mpr ⟨⟨hfst.1, fun key hkey => hfst.2 key ?_⟩, hrest⟩⟩
      rcases mem_of_mem_foldl_insert hkey with hkey | hkey
      · exact absurd hkey (AList.notMem_empty _)
      · obtain ⟨e, he, rfl⟩ := mem_map.mp hkey
        have he := (mem_insertionSort _).mp (mem_of_mem_drop he)
        exact mem_iff_lookup.mpr ⟨_, mem_toList.mp he⟩
    · exact h

/-- An event adds its key to its bucket. -/
theorem Bucketed.addLatest (h : Bucketed bucket_width events buckets) (f : V → V → V)
    (hle : ∀ e ∈ events, bucketStartFor bucket_width e.2 ≤ bucketStartFor bucket_width now) :
    Bucketed bucket_width (events ++ [(key, now)])
      (addLatest f (bucketStartFor bucket_width now) key v buckets) := by
  set start := bucketStartFor bucket_width now with hstart
  have hmem : (key, now) ∈ events ++ [(key, now)] := mem_append_right _ mem_cons_self
  have hold : ∀ b ∈ buckets, OfEvents bucket_width (events ++ [(key, now)]) b := by
    intro b hb
    obtain ⟨⟨e, he, hts⟩, hkeys⟩ := h.of_events b hb
    refine ⟨⟨e, mem_append_left _ he, hts⟩, fun key' hkey' => ?_⟩
    obtain ⟨e, he, hts⟩ := hkeys key' hkey'
    exact ⟨e, mem_append_left _ he, hts⟩
  have hbefore : ∀ b ∈ buckets, b.1 ≤ start := by
    intro b hb
    obtain ⟨⟨e, he, hts⟩, -⟩ := h.of_events b hb
    exact hts ▸ hle e he
  have hnew : OfEvents bucket_width (events ++ [(key, now)]) (start, (∅ : Table K V).insert key v) := by
    refine ⟨⟨_, hmem, rfl⟩, fun key' hkey' => ⟨_, hmem, rfl, ?_⟩⟩
    rcases (AList.mem_insert _).mp hkey' with rfl | hkey'
    · rfl
    · exact absurd hkey' (AList.notMem_empty _)
  rcases eq_nil_or_concat buckets with rfl | ⟨init, ⟨ts, last⟩, rfl⟩
  · exact ⟨pairwise_singleton _ _, forall_mem_singleton.mpr hnew⟩
  · rw [concat_eq_append] at h hold hbefore ⊢
    obtain ⟨hinit, -, hlast⟩ := pairwise_append.mp h.ordered
    obtain ⟨hoi, hol⟩ := forall_mem_append.mp hold
    rw [Correlate.addLatest, getLast?_concat]
    dsimp only
    split_ifs with hts
    · subst hts
      rw [dropLast_concat]
      refine ⟨pairwise_append.mpr ⟨hinit, pairwise_singleton _ _, fun b hb b' hb' => ?_⟩,
        forall_mem_append.mpr ⟨hoi, forall_mem_singleton.mpr ⟨⟨_, hmem, rfl⟩, fun key' hkey' => ?_⟩⟩⟩
      · rw [mem_singleton.mp hb']
        exact hlast b hb (_, last) mem_cons_self
      · by_cases hk : key' = key
        · exact ⟨_, hmem, rfl, hk.symm⟩
        · refine (hol _ mem_cons_self).2 key' ?_
          rwa [mem_iff_lookup, lookup_addWith, if_neg hk, ← mem_iff_lookup] at hkey'
    · have hlt : ts < start := lt_of_le_of_ne (hbefore (ts, last) (by simp)) hts
      refine ⟨pairwise_append.mpr ⟨h.ordered, pairwise_singleton _ _, fun b hb b' hb' => ?_⟩,
        forall_mem_append.mpr ⟨hold, forall_mem_singleton.mpr hnew⟩⟩
      rw [mem_singleton.mp hb']
      rcases mem_append.mp hb with hb | hb
      · exact (hlast b hb _ mem_cons_self).trans hlt
      · rw [mem_singleton.mp hb]
        exact hlt

/-- The newer buckets hold no more keys than the events after the oldest one bring. -/
theorem Bucketed.keyCount_le {b : Timestamp × Table K V}
    (h : Bucketed bucket_width events (b :: buckets)) :
    keyCount buckets ≤ (keysAfter bucket_width events b.1).card := by
  obtain ⟨hafter, hordered⟩ := pairwise_cons.mp h.ordered
  have hnodup : (buckets.flatMap fun b => b.2.keys.map (b.1, ·)).Nodup := by
    rw [nodup_flatMap]
    refine ⟨fun b _ => b.2.nodupKeys.map (Prod.mk_right_injective b.1), hordered.imp ?_⟩
    intro a b hlt e ha hb
    obtain ⟨_, -, rfl⟩ := mem_map.mp ha
    obtain ⟨_, -, heq⟩ := mem_map.mp hb
    exact hlt.ne' (Prod.mk.inj heq).1
  have hlen : (buckets.flatMap fun b => b.2.keys.map (b.1, ·)).length = keyCount buckets := by
    simp only [length_flatMap, length_map, ← size_eq]
    rfl
  rw [← hlen, ← toFinset_card_of_nodup hnodup]
  refine Finset.card_le_card fun e he => ?_
  obtain ⟨a, ha, he⟩ := mem_flatMap.mp (mem_toFinset.mp he)
  obtain ⟨key, hkey, rfl⟩ := mem_map.mp he
  obtain ⟨event, hevent, hts, rfl⟩ := (h.of_events a (mem_cons_of_mem _ ha)).2 key hkey
  refine mem_toFinset.mpr (mem_filter.mpr ⟨mem_map.mpr ⟨event, hevent, by rw [hts]⟩, ?_⟩)
  exact decide_eq_true (hafter a ha)

/-- What an update makes of the buckets. -/
def update (le : V → V → Prop) [DecidableRel le] (f : V → V → V) (window bucket_width : Duration)
    (capacity : Option ℕ) (buckets : List (Timestamp × Table K V)) (u : K × V × Timestamp) :
    List (Timestamp × Table K V) :=
  addLatest f (bucketStartFor bucket_width u.2.2) u.1 u.2.1
    (trimOldest le capacity (buckets.dropWhile fun b => b.1 < cutoffFor window u.2.2))

/-- The events of updates. -/
def eventsOf (updates : List (K × V × Timestamp)) : List (K × Timestamp) :=
  updates.map fun u => (u.1, u.2.2)

/-- After every update there is at most one key too many. -/
theorem keyCount_updates (le : V → V → Prop) [DecidableRel le] (f : V → V → V)
    (updates : List (K × V × Timestamp)) (hforward : Forward (eventsOf updates))
    (hsparse : Sparse window bucket_width capacity (eventsOf updates)) :
    Bucketed bucket_width (eventsOf updates)
        (updates.foldl (update le f window bucket_width (some capacity)) []) ∧
      keyCount (updates.foldl (update le f window bucket_width (some capacity)) []) ≤ capacity + 1 := by
  induction updates using reverseRecOn with
  | nil => exact ⟨⟨.nil, forall_mem_nil _⟩, Nat.zero_le _⟩
  | append_singleton updates u ih =>
    obtain ⟨key, v, now⟩ := u
    have hevents : eventsOf (updates ++ [(key, v, now)]) = eventsOf updates ++ [(key, now)] := map_append
    rw [hevents] at hforward hsparse ⊢
    obtain ⟨hrep, htimes⟩ := hforward
    obtain ⟨htimes, -, hlate⟩ := pairwise_append.mp htimes
    obtain ⟨hrep, hnow⟩ := forall_mem_append.mp hrep
    have hnow : now.Representable := hnow (key, now) mem_cons_self
    have hsparse' : Sparse window bucket_width capacity (eventsOf updates) := by
      intro i hi e he e' he' hlive
      have hlen : i < (eventsOf updates ++ [(key, now)]).length := by
        rw [length_append]
        omega
      have := hsparse i hlen e (by rwa [getElem?_append_left hi])
      rw [take_append_of_le_length hi.le] at this
      exact this e' he' hlive
    obtain ⟨hb, -⟩ := ih ⟨hrep, htimes⟩ hsparse'
    rw [foldl_append]
    generalize updates.foldl _ [] = buckets at hb ⊢
    -- the buckets in the window
    have hlive : Bucketed bucket_width (eventsOf updates)
        (buckets.dropWhile fun b => b.1 < cutoffFor window now) :=
      ⟨hb.ordered.sublist (dropWhile_sublist _),
        fun b h => hb.of_events b ((dropWhile_sublist _).subset h)⟩
    have hnewer : keyCount (buckets.dropWhile fun b => b.1 < cutoffFor window now).tail ≤ capacity := by
      cases hd : buckets.dropWhile fun b => b.1 < cutoffFor window now with
      | nil => exact Nat.zero_le _
      | cons b rest =>
        rw [hd] at hlive
        obtain ⟨⟨e', he', hts⟩, -⟩ := hlive.of_events b mem_cons_self
        have hhead := head_dropWhile_not (fun b : Timestamp × Table K V => decide (b.1 < cutoffFor window now))
          (hd ▸ cons_ne_nil b rest)
        simp only [hd, decide_eq_false_iff_not, not_lt] at hhead
        have hlen : (eventsOf updates).length < (eventsOf updates ++ [(key, now)]).length := by
          rw [length_append]
          exact Nat.lt_succ_self _
        have hcard := hsparse _ hlen (key, now) getElem?_concat_length e' (by rwa [take_left])
          (hhead.trans_eq hts.symm)
        rw [take_left, hts] at hcard
        exact hlive.keyCount_le.trans hcard
    refine ⟨(hlive.trimOldest le _).addLatest f fun e he => ?_, ?_⟩
    · exact bucketStartFor_mono (hrep e he) hnow (hlate e he (key, now) mem_cons_self)
    · exact (keyCount_addLatest_le _ _ _ _ _).trans
        (Nat.succ_le_succ (keyCount_trimOldest_le le hnewer))

/-- The buckets of a counter after some updates. -/
theorem foldl_bump (updates : List (K × V × Timestamp)) (window bucket_width : Duration)
    (capacity : Option ℕ) :
    updates.foldl (fun c u => c.bump u.1 u.2.2) (TimeBucketedCounter.new window bucket_width capacity) =
      ⟨window, bucket_width, capacity, (updates.map fun u => (u.1, (1 : BitVec 64), u.2.2)).foldl
        (update (· ≤ ·) (· + ·) window bucket_width capacity) []⟩ := by
  induction updates using reverseRecOn with
  | nil => rfl
  | append_singleton updates u ih =>
    rw [foldl_append, ih, map_append, foldl_append, foldl_cons, bump_eq]
    rfl

/-- The buckets of a set after some updates. -/
theorem foldl_insert [DecidableEq V] (updates : List (K × V × Timestamp))
    (window bucket_width : Duration) (capacity : Option ℕ) :
    updates.foldl (fun s u => s.insert u.1 u.2.1 u.2.2)
        (TimeBucketedSet.new window bucket_width capacity) =
      ⟨window, bucket_width, capacity, (updates.map fun u => (u.1, ({u.2.1} : Finset V), u.2.2)).foldl
        (update (fun a b => a.card ≤ b.card) (· ∪ ·) window bucket_width capacity) []⟩ := by
  induction updates using reverseRecOn with
  | nil => rfl
  | append_singleton updates u ih =>
    rw [foldl_append, ih, map_append, foldl_append]
    rfl

/-- While time goes on and the updates that follow a bucket in the window bring no more keys than the
capacity, there is at most one key too many after every update. -/
theorem len_le_capacity [DecidableEq V] (window bucket_width : Duration) (capacity : ℕ)
    (updates : List (K × V × Timestamp)) (hforward : Forward (eventsOf updates))
    (hsparse : Sparse window bucket_width capacity (eventsOf updates)) :
    (updates.foldl (fun c u => c.bump u.1 u.2.2)
        (TimeBucketedCounter.new window bucket_width (some capacity))).len ≤ capacity + 1 ∧
      (updates.foldl (fun s u => s.insert u.1 u.2.1 u.2.2)
        (TimeBucketedSet.new window bucket_width (some capacity))).len ≤ capacity + 1 := by
  have hevents : ∀ {W : Type} (g : V → W),
      eventsOf (updates.map fun u => (u.1, g u.2.1, u.2.2)) = eventsOf updates := by
    intro W g
    rw [eventsOf, map_map]
    rfl
  rw [foldl_bump, foldl_insert]
  constructor
  · refine (keyCount_updates _ _ _ ?_ ?_).2 <;> rwa [hevents fun _ => 1]
  · refine (keyCount_updates _ _ _ ?_ ?_).2 <;> rwa [hevents fun v => ({v} : Finset V)]

/-- Four keys in a first bucket and two in a second one: keys of the first one are dropped. -/
def crowded : List (ℕ × ℕ × Timestamp) :=
  [(0, 0, ⟨0, 0⟩), (1, 0, ⟨0, 0⟩), (2, 0, ⟨0, 0⟩), (3, 0, ⟨0, 0⟩), (4, 0, ⟨0, 1⟩), (5, 0, ⟨0, 1⟩)]

/-- Keys of the first bucket are dropped when the second one comes. -/
theorem len_le_capacity_crowded :
    (crowded.foldl (fun c u => c.bump u.1 u.2.2) (TimeBucketedCounter.new 10 1 (some 2))).len ≤ 2 + 1 ∧
      (crowded.foldl (fun s u => s.insert u.1 u.2.1 u.2.2)
        (TimeBucketedSet.new 10 1 (some 2))).len ≤ 2 + 1 :=
  len_le_capacity 10 1 2 crowded
    ⟨by simp [eventsOf, crowded, Timestamp.Representable, Timestamp.toDuration], by decide +kernel⟩
    (by unfold Sparse; decide +kernel)

/-- Two buckets, of which the newest has so many keys. -/
def Grown (n : ℕ) (c : TimeBucketedCounter ℕ) : Prop :=
  ∃ t0 t, c = ⟨10, 1, some 1, [(⟨0, 0⟩, t0), (⟨0, 1⟩, t)]⟩ ∧ t.size = n ∧ ∀ key ∈ t, key < n

theorem Grown.bump {n : ℕ} {c : TimeBucketedCounter ℕ} (h : Grown n c) :
    Grown (n + 1) (c.bump n ⟨0, 1⟩) := by
  obtain ⟨t0, t, rfl, hsz, hkeys⟩ := h
  have hmem : n ∉ t := fun h => absurd (hkeys n h) (lt_irrefl n)
  have hadd : t.addWith (· + ·) n 1 = t.insert n 1 := by
    rw [addWith, AList.lookup_eq_none.mpr hmem, put, if_neg hmem]
  obtain ⟨t1, htrim⟩ : ∃ t1, trimOldest (· ≤ ·) (some 1) [(⟨0, 0⟩, t0), (⟨0, 1⟩, t)] =
      [((⟨0, 0⟩ : Timestamp), t1), (⟨0, 1⟩, t)] := by
    unfold trimOldest
    dsimp only
    split_ifs <;> exact ⟨_, rfl⟩
  have hlt : ¬(⟨0, 0⟩ : Timestamp) < cutoffFor 10 ⟨0, 1⟩ := by decide
  have hst : bucketStartFor 1 ⟨0, 1⟩ = ⟨0, 1⟩ := by decide
  refine ⟨t1, t.insert n 1, ?_, by rw [size_insert_of_not_mem hmem, hsz], fun key hkey => ?_⟩
  · simpa [bump_eq, hlt, htrim, addLatest, hst] using hadd
  · rcases (AList.mem_insert _).mp hkey with rfl | hkey
    · exact Nat.lt_succ_self key
    · exact (hkeys key hkey).trans (Nat.lt_succ_self n)

/-- A key in the first bucket, and then new keys in the second: the oldest bucket is soon empty, and
the newest one keeps them all. -/
theorem len_unbounded : ¬∃ bound, ∀ updates : List (ℕ × Timestamp),
    updates.Pairwise (fun a b => a.2 ≤ b.2) → (updates.foldl (fun c u => c.bump u.1 u.2)
      (TimeBucketedCounter.new 10 1 (some 1))).len ≤ bound := by
  rintro ⟨bound, h⟩
  refine absurd (h ((0, ⟨0, 0⟩) :: (range (bound + 1)).map fun key => (key, ⟨0, 1⟩)) ?_) (not_le.mpr ?_)
  · refine pairwise_cons.mpr ⟨fun u hu => ?_, pairwise_map.mpr (pairwise_of_forall fun _ _ => le_rfl)⟩
    obtain ⟨key, -, rfl⟩ := mem_map.mp hu
    exact (by decide : (⟨0, 0⟩ : Timestamp) ≤ ⟨0, 1⟩)
  · have hgr : ∀ n, Grown (n + 1) ((range (n + 1)).foldl (fun c key => c.bump key ⟨0, 1⟩)
        (.bump (.new 10 1 (some 1)) 0 ⟨0, 0⟩)) := by
      intro n
      induction n with
      | zero => exact ⟨_, AList.singleton 0 1, rfl, rfl, by decide⟩
      | succ n ih =>
        rw [range_succ, foldl_append]
        exact ih.bump
    obtain ⟨t0, t, heq, hsz, -⟩ := hgr bound
    rw [foldl_cons, foldl_map, heq]
    show bound < t0.size + (t.size + 0)
    omega

end Flowscope.Correlate
