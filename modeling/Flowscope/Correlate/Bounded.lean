import Flowscope.Correlate.RollingRate
import Flowscope.Lib.Lru
import Mathlib.Data.BitVec
import Mathlib.Data.List.Sort

/-!
# Merging bounded structures

`TopK`, `FirstSeen` and `RollingRate` (`src/correlate/topk.rs`, `src/correlate/first_seen.rs`,
`src/correlate/rolling_rate.rs`) hold a bounded number of keys. `Mergeable` (`src/correlate/mergeable.rs`)
asks of a merge that it is commutative and associative. It is so as long as there is room for all keys of
the instances that are merged (`merges_of_room`). Where there is not, a key may be squeezed out in the
middle, and then the grouping matters to all three, and the order to two of them.

The order never matters to `TopK`, and it matters to `FirstSeen` just when there is no room. Whether the
grouping matters is not a question of which keys there are: with room for one key, the counts decide
(see the example after `merges_of_room`).
-/

namespace Flowscope.Correlate

open Table List LruCache RollingRate

variable {K : Type} [DecidableEq K]

/-! ## The greatest counts -/

structure TopK (K : Type) where
  k : ℕ
  counts : Table K (BitVec 64)

namespace TopK

def new (k : ℕ) : TopK K := ⟨k, ∅⟩

/-- Observe a key `count` times. Where there is no room for a new key, all counts go down, and those
that reach zero make room. -/
def observeN (t : TopK K) (key : K) (count : BitVec 64) : TopK K :=
  if count = 0 then t
  else
    match t.counts.lookup key with
    | some c => { t with counts := t.counts.put key (c + count) }
    | none =>
      if t.counts.size < t.k then { t with counts := t.counts.insert key count }
      else
        let counts := (t.counts.retain fun _ c => ¬ c ≤ count).mapVals fun _ c => c - count
        { t with counts := if counts.size < t.k then counts.insert key count else counts }

def observe (t : TopK K) (key : K) : TopK K := t.observeN key 1

/-- The counts, the greatest first. -/
def sorted (counts : Table K (BitVec 64)) : List (BitVec 64) :=
  (counts.toList.map Prod.snd).insertionSort fun a b => b ≤ a

/-- Cut down to `k` keys: the greatest count for which there is no room is taken off all of them. -/
def truncate (k : ℕ) (counts : Table K (BitVec 64)) : Table K (BitVec 64) :=
  if counts.size ≤ k then counts
  else
    let pivot := (sorted counts).getD k 0
    (counts.retain fun _ c => ¬ c ≤ pivot).mapVals fun _ c => c - pivot

/-- Merge an instance with the same bound. -/
def merge (t other : TopK K) : TopK K :=
  { t with counts := truncate t.k (t.counts.mergeWith (· + ·) other.counts) }

def estimate (t : TopK K) (key : K) : BitVec 64 := (t.counts.lookup key).getD 0

/-- The keys and their counts, the greatest first. Keys of one count are in no particular order. -/
def top (t : TopK K) : List (K × BitVec 64) := t.counts.toList.insertionSort fun a b => b.2 ≤ a.2

def len (t : TopK K) : ℕ := t.counts.size

def isEmpty (t : TopK K) : Bool := t.counts.size = 0

/-- Two instances answer every query alike. -/
structure Alike (t t' : TopK K) : Prop where
  estimate : ∀ key, t.estimate key = t'.estimate key
  top : t.top.Perm t'.top
  topCounts : t.top.map Prod.snd = t'.top.map Prod.snd
  len : t.len = t'.len
  isEmpty : t.isEmpty = t'.isEmpty

omit [DecidableEq K] in
/-- Sorting by a count puts the greatest first. -/
theorem pairwise_insertionSort_desc {α : Type} (count : α → BitVec 64) (l : List α) :
    (l.insertionSort fun a b => count b ≤ count a).Pairwise fun a b => count b ≤ count a := by
  exact pairwise_insertionSort (fun a b => count b ≤ count a) l

/-- What the queries answer depends on the lookups. -/
theorem alike_of_lookup {t t' : TopK K} (h : ∀ key, t.counts.lookup key = t'.counts.lookup key) :
    t.Alike t' := by
  have hls : t.counts.toList.Perm t'.counts.toList := (perm_of_lookup h).map _
  have htop : t.top.Perm t'.top :=
    (perm_insertionSort _ _).trans (hls.trans (perm_insertionSort _ _).symm)
  have hsz := size_eq_of_lookup h
  refine ⟨fun key => ?_, htop, ?_, hsz, ?_⟩
  · rw [estimate, estimate, h]
  · have hps : ∀ t : TopK K, (t.top.map Prod.snd).Pairwise fun a b => b ≤ a := fun t =>
      pairwise_map.mpr (pairwise_insertionSort_desc Prod.snd t.counts.toList)
    exact (htop.map _).eq_of_pairwise (fun a b _ _ hab hba => BitVec.le_antisymm hba hab) (hps t)
      (hps t')
  · rw [isEmpty, isEmpty, hsz]

/-- The cut depends on the lookups. -/
theorem lookup_truncate {k : ℕ} {counts counts' : Table K (BitVec 64)}
    (h : ∀ key, counts.lookup key = counts'.lookup key) (key : K) :
    (truncate k counts).lookup key = (truncate k counts').lookup key := by
  have hpr : (sorted counts).Perm (sorted counts') :=
    (perm_insertionSort _ _).trans
      ((((perm_of_lookup h).map _).map _).trans (perm_insertionSort _ _).symm)
  have hsr : sorted counts = sorted counts' :=
    hpr.eq_of_pairwise (fun a b _ _ hab hba => BitVec.le_antisymm hba hab)
      (pairwise_insertionSort_desc id _) (pairwise_insertionSort_desc id _)
  rw [truncate, truncate, size_eq_of_lookup h, hsr]
  split_ifs
  · exact h key
  · rw [lookup_mapVals, lookup_mapVals, lookup_retain, lookup_retain, h]

/-- In either order, two instances give the same. -/
theorem merge_comm_alike {a b : TopK K} (hk : a.k = b.k) : (a.merge b).Alike (b.merge a) := by
  apply alike_of_lookup
  rw [merge, hk]
  apply lookup_truncate
  intro key
  rw [lookup_mergeWith, lookup_mergeWith]
  exact Std.Commutative.comm _ _

/-- Nothing is cut off where there is room for all keys. -/
theorem merge_of_room {a b : TopK K} (h : (a.counts.keySet ∪ b.counts.keySet).card ≤ a.k) :
    (a.merge b).counts = a.counts.mergeWith (· + ·) b.counts := by
  have hsz : (a.counts.mergeWith (· + ·) b.counts).size ≤ a.k := by
    rw [← card_keySet, keySet_mergeWith]
    exact h
  exact if_pos hsz

/-- In either grouping, three instances give the same where there is room for their keys. -/
theorem merge_assoc_of_room {a b c : TopK K} (hk : a.k = b.k)
    (hrm : (a.counts.keySet ∪ b.counts.keySet ∪ c.counts.keySet).card ≤ a.k) :
    ((a.merge b).merge c).Alike (a.merge (b.merge c)) := by
  have hab : (a.merge b).counts = a.counts.mergeWith (· + ·) b.counts :=
    merge_of_room ((Finset.card_le_card Finset.subset_union_left).trans hrm)
  have hbc : (b.merge c).counts = b.counts.mergeWith (· + ·) c.counts := by
    apply merge_of_room
    rw [← hk]
    exact (Finset.card_le_card (Finset.union_subset_union_left Finset.subset_union_right)).trans hrm
  have habc : ((a.merge b).merge c).counts = (a.merge b).counts.mergeWith (· + ·) c.counts := by
    apply merge_of_room
    rw [hab, keySet_mergeWith]
    exact hrm
  have hab' : (a.merge (b.merge c)).counts = a.counts.mergeWith (· + ·) (b.merge c).counts := by
    apply merge_of_room
    rw [hbc, keySet_mergeWith, ← Finset.union_assoc]
    exact hrm
  apply alike_of_lookup
  intro key
  rw [habc, hab', hab, hbc, lookup_mergeWith, lookup_mergeWith, lookup_mergeWith, lookup_mergeWith]
  exact Std.Associative.assoc _ _ _

end TopK

/-! ## First sightings -/

structure Seen where
  first_seen : Timestamp
  last_seen : Timestamp
deriving DecidableEq, Repr

/-- The earliest first and the latest last sighting. -/
def Seen.combine (mine other : Seen) : Seen where
  first_seen := if other.first_seen < mine.first_seen then other.first_seen else mine.first_seen
  last_seen := if other.last_seen > mine.last_seen then other.last_seen else mine.last_seen

theorem Seen.combine_eq (a b : Seen) :
    a.combine b = ⟨min a.first_seen b.first_seen, max a.last_seen b.last_seen⟩ := by
  unfold combine
  split_ifs with h6 <;> grind

instance : Std.Commutative Seen.combine :=
  ⟨fun a b => by rw [Seen.combine_eq, Seen.combine_eq, min_comm, max_comm]⟩

instance : Std.Associative Seen.combine :=
  ⟨fun a b c => by simp only [Seen.combine_eq, min_assoc, max_assoc]⟩

structure FirstSeen (K : Type) where
  ttl : Duration
  inner : LruCache K Seen

namespace FirstSeen

def new (ttl : Duration) (capacity : ℕ) : FirstSeen K :=
  ⟨ttl, .new (max capacity 1) (lt_max_of_lt_right Nat.one_pos)⟩

def expired (s : FirstSeen K) (seen : Seen) (now : Timestamp) : Bool :=
  now.saturatingSub seen.last_seen > s.ttl

/-- Observe a key. Also whether it is new. -/
def observe (s : FirstSeen K) (key : K) (now : Timestamp) : FirstSeen K × Bool :=
  match s.inner.peek key with
  | some seen =>
    if s.expired seen now then ({ s with inner := s.inner.set key ⟨now, now⟩ }, true)
    else ({ s with inner := s.inner.set key { seen with last_seen := now } }, false)
  | none => ({ s with inner := (s.inner.push key ⟨now, now⟩).1 }, true)

/-- Merge one entry: a key that there is, is used. -/
def mergeEntry (inner : LruCache K Seen) (e : K × Seen) : LruCache K Seen :=
  match inner.peek e.1 with
  | some mine => inner.set e.1 (mine.combine e.2)
  | none => (inner.push e.1 e.2).1

/-- Merge an instance with the same bounds, beginning with the entry used longest ago. -/
def merge (s other : FirstSeen K) : FirstSeen K :=
  { s with inner := other.inner.iter.reverse.foldl mergeEntry s.inner }

def seen (s : FirstSeen K) (key : K) (now : Timestamp) : Bool :=
  (s.inner.peek key).any fun seen => !s.expired seen now

def firstSeen (s : FirstSeen K) (key : K) (now : Timestamp) : Option Timestamp :=
  ((s.inner.peek key).filter fun seen => !s.expired seen now).map Seen.first_seen

def len (s : FirstSeen K) : ℕ := s.inner.len

def isEmpty (s : FirstSeen K) : Bool := s.inner.len = 0

/-- Two instances answer every query alike. -/
structure Alike (s s' : FirstSeen K) : Prop where
  seen : ∀ key now, s.seen key now = s'.seen key now
  firstSeen : ∀ key now, s.firstSeen key now = s'.firstSeen key now
  len : s.len = s'.len
  isEmpty : s.isEmpty = s'.isEmpty

/-- What the queries answer depends on the lookups. -/
theorem alike_of_peek {s s' : FirstSeen K} (httl : s.ttl = s'.ttl)
    (h : ∀ key, s.inner.peek key = s'.inner.peek key) : s.Alike s' := by
  have hlen : s.inner.len = s'.inner.len := size_eq_of_lookup h
  have hex : ∀ seen now, s.expired seen now = s'.expired seen now := by
    intro seen now
    rw [expired, expired, httl]
  refine ⟨fun key now => ?_, fun key now => ?_, hlen, ?_⟩
  · simp only [FirstSeen.seen, h, hex]
  · simp only [FirstSeen.firstSeen, h, hex]
  · rw [isEmpty, isEmpty, hlen]

variable {inner : LruCache K Seen} {keys : Finset K}

/-- Merging does not change the capacity. -/
theorem cap_mergeEntry (inner : LruCache K Seen) (e : K × Seen) :
    (mergeEntry inner e).cap = inner.cap := by
  rw [mergeEntry]
  cases hpeek : inner.peek e.1 with
  | some mine => exact (sets_set hpeek).cap
  | none => exact cap_push _ _ _

theorem cap_foldl (l : List (K × Seen)) (inner : LruCache K Seen) :
    (l.foldl mergeEntry inner).cap = inner.cap := by
  induction l generalizing inner with
  | nil => rfl
  | cons e l ih => exact (ih _).trans (cap_mergeEntry inner e)

theorem mergeEntry_of_room (hcr : keys.card ≤ inner.cap)
    (hsub : inner.entries.keySet ⊆ keys) {e : K × Seen} (he : e.1 ∈ keys) :
    ∀ key, (mergeEntry inner e).peek key =
      if key = e.1 then Option.merge Seen.combine (inner.peek e.1) (some e.2) else inner.peek key := by
  rw [mergeEntry]
  cases h : inner.peek e.1 with
  | some mine => exact (sets_set h).peek
  | none =>
    have hnot : e.1 ∉ inner.entries := by
      rw [mem_entries_iff, h]
      exact nofun
    have hrm : inner.len < inner.cap := (size_lt_of_not_mem hsub he hnot).trans_le hcr
    exact (adds_push h hrm e.2).peek

/-- Merging entries of different keys combines the sightings of each key where there is room. -/
theorem peek_foldl {l : List (K × Seen)} (hnp : (l.map Prod.fst).Nodup)
    (hl : ∀ e ∈ l, e.1 ∈ keys) (hcr : keys.card ≤ inner.cap)
    (hsub : inner.entries.keySet ⊆ keys) :
    (∀ e ∈ l, (l.foldl mergeEntry inner).peek e.1 =
        Option.merge Seen.combine (inner.peek e.1) (some e.2)) ∧
      ∀ key ∉ l.map Prod.fst, (l.foldl mergeEntry inner).peek key = inner.peek key := by
  induction l generalizing inner with
  | nil => exact ⟨nofun, fun _ _ => rfl⟩
  | cons e l ih =>
    obtain ⟨hnot, hnp⟩ := nodup_cons.mp hnp
    have he := hl e mem_cons_self
    have hpk := mergeEntry_of_room hcr hsub he
    have hsb' : (mergeEntry inner e).entries.keySet ⊆ keys := by
      intro key hkey
      rw [mem_keySet, mem_entries_iff, hpk] at hkey
      by_cases hk : key = e.1
      · exact hk ▸ he
      · rw [if_neg hk] at hkey
        exact hsub (mem_keySet.mpr (mem_entries_iff.mpr hkey))
    obtain ⟨hmem, hor⟩ := ih hnp (fun e' he' => hl e' (mem_cons_of_mem e he'))
      (by rwa [cap_mergeEntry]) hsb'
    rw [foldl_cons]
    refine ⟨fun e' he' => ?_, fun key hkey => ?_⟩
    · rcases mem_cons.mp he' with rfl | he'
      · rw [hor _ hnot, hpk, if_pos rfl]
      · have hne : e'.1 ≠ e.1 := fun heq => hnot (heq ▸ mem_map_of_mem he')
        rw [hmem e' he', hpk, if_neg hne]
    · rw [map_cons, mem_cons, not_or] at hkey
      rw [hor key hkey.2, hpk, if_neg hkey.1]

/-- The keys that are held. -/
def keySet (s : FirstSeen K) : Finset K := s.inner.entries.keySet

theorem cap_merge (s other : FirstSeen K) : (s.merge other).inner.cap = s.inner.cap := cap_foldl _ _

omit [DecidableEq K] in
/-- Entries are merged in the order of their last use, each key once. -/
theorem keys_iter (s : FirstSeen K) :
    s.inner.iter.reverse.map Prod.fst = s.inner.entries.keys.reverse := by
  rw [map_reverse, LruCache.iter, toList, map_map]
  rfl

omit [DecidableEq K] in
theorem nodup_iter (s : FirstSeen K) : (s.inner.iter.reverse.map Prod.fst).Nodup := by
  rw [keys_iter, nodup_reverse]
  exact s.inner.entries.keys_nodup

/-- Merging combines the sightings of each key where there is room for all of them. -/
theorem peek_merge {s other : FirstSeen K} (hrm : (s.keySet ∪ other.keySet).card ≤ s.inner.cap)
    (key : K) : (s.merge other).inner.peek key =
      Option.merge Seen.combine (s.inner.peek key) (other.inner.peek key) := by
  have hl : ∀ e ∈ other.inner.iter.reverse, e.1 ∈ s.keySet ∪ other.keySet := by
    intro e he
    have hpk := mem_iter.mp (mem_reverse.mp he)
    exact Finset.mem_union_right _ (mem_keySet.mpr (mem_entries_iff.mpr ⟨_, hpk⟩))
  obtain ⟨hmem, hor⟩ := peek_foldl other.nodup_iter hl hrm Finset.subset_union_left
  cases hpk : other.inner.peek key with
  | some seen => exact hmem (key, seen) (mem_reverse.mpr (mem_iter.mpr hpk))
  | none =>
    rw [Option.merge_none_right]
    apply hor
    rw [keys_iter, mem_reverse]
    intro hkey
    obtain ⟨v, hv⟩ := mem_entries_iff.mp (AList.mem_keys.mpr hkey)
    rw [hpk] at hv
    cases hv

theorem keySet_merge {s other : FirstSeen K} (hrm : (s.keySet ∪ other.keySet).card ≤ s.inner.cap) :
    (s.merge other).keySet = s.keySet ∪ other.keySet := by
  ext key
  rw [Finset.mem_union, keySet, keySet, keySet, mem_keySet, mem_keySet, mem_keySet,
    mem_entries_iff, mem_entries_iff, mem_entries_iff, peek_merge hrm]
  cases s.inner.peek key <;> cases other.inner.peek key <;> simp

/-- Merging one entry uses its key. -/
theorem front_mergeEntry {used : Finset K} (h : inner.Front used) {e : K × Seen}
    (hroom : (insert e.1 used).card ≤ inner.cap) : (mergeEntry inner e).Front (insert e.1 used) := by
  rw [mergeEntry]
  cases hpeek : inner.peek e.1 with
  | some mine =>
    have hfront := h.push hroom (mine.combine e.2)
    rwa [push_of_some hpeek] at hfront
  | none => exact h.push hroom e.2

/-- Entries that are merged are there afterwards, if there is room for them. -/
theorem front_foldl {l : List (K × Seen)} {used : Finset K} (h : inner.Front used)
    (hroom : (used ∪ (l.map Prod.fst).toFinset).card ≤ inner.cap) :
    (l.foldl mergeEntry inner).Front (used ∪ (l.map Prod.fst).toFinset) := by
  induction l generalizing inner used with
  | nil => simpa using h
  | cons e l ih =>
    rw [map_cons, toFinset_cons, Finset.union_insert, ← Finset.insert_union] at hroom ⊢
    refine ih (front_mergeEntry h ((Finset.card_le_card Finset.subset_union_left).trans hroom)) ?_
    rwa [cap_mergeEntry]

/-- No key of the instance that is merged into another one is dropped. -/
theorem keySet_subset_merge {s other : FirstSeen K} (hcap : other.inner.cap = s.inner.cap) :
    other.keySet ⊆ (s.merge other).keySet := by
  have hkeys : (other.inner.iter.reverse.map Prod.fst).toFinset = other.keySet := by
    ext key
    rw [keys_iter, mem_toFinset, mem_reverse, keySet, mem_keySet, AList.mem_keys]
  have hroom : (∅ ∪ (other.inner.iter.reverse.map Prod.fst).toFinset).card ≤ s.inner.cap := by
    rw [Finset.empty_union, hkeys, keySet, card_keySet, ← hcap]
    exact other.inner.size_le
  intro key hkey
  have hused : key ∈ ∅ ∪ (other.inner.iter.reverse.map Prod.fst).toFinset := by
    rwa [hkeys]
  exact mem_keySet.mpr (mem_entries_iff.mpr ((front_foldl s.inner.front_empty hroom).peek hused))

/-- Instances that answer alike hold the same keys: a key is seen at its last sighting. -/
theorem Alike.keySet_subset {s s' : FirstSeen K} (h : s.Alike s') : s.keySet ⊆ s'.keySet := by
  intro key hkey
  obtain ⟨sight, hpeek⟩ := mem_entries_iff.mp (mem_keySet.mp hkey)
  have hseen : s.seen key sight.last_seen = true := by
    rw [FirstSeen.seen, hpeek, Option.any_some, expired, Timestamp.saturatingSub_self]
    rfl
  rw [h.seen, FirstSeen.seen, Option.any_eq_true] at hseen
  obtain ⟨sight', hpeek', -⟩ := hseen
  exact mem_keySet.mpr (mem_entries_iff.mpr ⟨sight', hpeek'⟩)

/-- In either order, two instances give the same just when there is room for their keys. -/
theorem merge_comm_iff {a b : FirstSeen K} (httl : a.ttl = b.ttl) (hcap : a.inner.cap = b.inner.cap) :
    (a.merge b).Alike (b.merge a) ↔ (a.keySet ∪ b.keySet).card ≤ a.inner.cap := by
  constructor
  · intro h
    have hsub : a.keySet ∪ b.keySet ⊆ (b.merge a).keySet :=
      Finset.union_subset (keySet_subset_merge hcap)
        ((keySet_subset_merge hcap.symm).trans h.keySet_subset)
    calc (a.keySet ∪ b.keySet).card ≤ (b.merge a).keySet.card := Finset.card_le_card hsub
      _ = (b.merge a).inner.len := card_keySet _
      _ ≤ (b.merge a).inner.cap := (b.merge a).inner.size_le
      _ = a.inner.cap := (cap_merge b a).trans hcap.symm
  · intro hrm
    have hrm' : (b.keySet ∪ a.keySet).card ≤ b.inner.cap := by
      rw [← hcap, Finset.union_comm]
      exact hrm
    refine alike_of_peek httl fun key => ?_
    rw [peek_merge hrm, peek_merge hrm']
    exact Std.Commutative.comm _ _

/-- In either grouping, three instances give the same where there is room for their keys. -/
theorem merge_assoc_of_room {a b c : FirstSeen K} (hcap : a.inner.cap = b.inner.cap)
    (hrm : (a.keySet ∪ b.keySet ∪ c.keySet).card ≤ a.inner.cap) :
    ((a.merge b).merge c).Alike (a.merge (b.merge c)) := by
  have hab : (a.keySet ∪ b.keySet).card ≤ a.inner.cap :=
    (Finset.card_le_card Finset.subset_union_left).trans hrm
  have hbc : (b.keySet ∪ c.keySet).card ≤ b.inner.cap := by
    rw [← hcap]
    exact (Finset.card_le_card (Finset.union_subset_union_left Finset.subset_union_right)).trans hrm
  have habc : ((a.merge b).keySet ∪ c.keySet).card ≤ (a.merge b).inner.cap := by
    rw [keySet_merge hab, cap_merge]
    exact hrm
  have hab' : (a.keySet ∪ (b.merge c).keySet).card ≤ a.inner.cap := by
    rw [keySet_merge hbc, ← Finset.union_assoc]
    exact hrm
  refine alike_of_peek rfl fun key => ?_
  rw [peek_merge habc, peek_merge hab, peek_merge hab', peek_merge hbc]
  exact Std.Associative.assoc _ _ _

end FirstSeen

/-! ## The contract -/

/-- The order of a merge cannot be seen. -/
def Commutes {S : Type} (merge : S → S → S) (Alike : S → S → Prop) (a b : S) : Prop :=
  Alike (merge a b) (merge b a)

/-- The grouping of a merge cannot be seen. -/
def Associates {S : Type} (merge : S → S → S) (Alike : S → S → Prop) (a b c : S) : Prop :=
  Alike (merge (merge a b) c) (merge a (merge b c))

/-- What `Mergeable` asks for holds where there is room for the keys of the instances: in the table of
`TopK`, in the cache of `FirstSeen`, and in each time bucket of `RollingRate`. To commute, `TopK` needs no
room, and `FirstSeen` needs it. -/
theorem merges_of_room (K V : Type) [DecidableEq K] [AddCommMonoid V] :
    (∀ a b c : TopK K, a.k = b.k → b.k = c.k →
        Commutes TopK.merge TopK.Alike a b ∧
          ((a.counts.keySet ∪ b.counts.keySet ∪ c.counts.keySet).card ≤ a.k →
            Associates TopK.merge TopK.Alike a b c)) ∧
      (∀ a b c : FirstSeen K, a.ttl = b.ttl → b.ttl = c.ttl → a.inner.cap = b.inner.cap →
        b.inner.cap = c.inner.cap →
        (Commutes FirstSeen.merge FirstSeen.Alike a b ↔
            (a.keySet ∪ b.keySet).card ≤ a.inner.cap) ∧
          ((a.keySet ∪ b.keySet ∪ c.keySet).card ≤ a.inner.cap →
            Associates FirstSeen.merge FirstSeen.Alike a b c)) ∧
      ∀ a b c : RollingRate K V, a.window = b.window → b.window = c.window →
        a.bucket_width = b.bucket_width → b.bucket_width = c.bucket_width →
        a.max_keys = b.max_keys → b.max_keys = c.max_keys →
        ((∀ t, Room a.max_keys (a.keysAt t ∪ b.keysAt t)) →
            Commutes RollingRate.merge RollingRate.Alike a b) ∧
          ((∀ t, Room a.max_keys (a.keysAt t ∪ b.keysAt t ∪ c.keysAt t)) →
            Associates RollingRate.merge RollingRate.Alike a b c) := by
  refine ⟨?_, ?_, ?_⟩
  · intro a b c hk _
    exact ⟨TopK.merge_comm_alike hk, TopK.merge_assoc_of_room hk⟩
  · intro a b c httl _ hcap _
    exact ⟨FirstSeen.merge_comm_iff httl hcap, FirstSeen.merge_assoc_of_room hcap⟩
  · intro a b c hwindow _ _ _ hmax _
    exact ⟨merge_comm_of_room hwindow hmax, merge_assoc_of_room hmax⟩

/-- An instance with room for `k` keys that has observed one key. -/
def oneTop (k key : ℕ) : TopK ℕ := (TopK.new k).observe key

def oneSeen (capacity key : ℕ) : FirstSeen ℕ := ((FirstSeen.new 10 capacity).observe key .zero).1

def oneRate (max_keys key : ℕ) : RollingRate ℕ (BitVec 64) :=
  (RollingRate.new 10 1 (some max_keys)).record key 5 .zero

theorem keysAt_oneRate (key : ℕ) (t : Timestamp) : (oneRate 3 key).keysAt t ⊆ {key} := by
  have hbk : (oneRate 3 key).buckets =
    [(.zero, ⟨(∅ : Table ℕ (BitVec 64)).insert key 5, none⟩)] := rfl
  intro j hj
  rw [keysAt, hbk, Series.find] at hj
  split_ifs at hj
  · rcases (AList.mem_insert _).mp (mem_keySet.mp hj) with hj | hj
    · exact Finset.mem_singleton.mpr hj
    · cases hj
  · cases mem_keySet.mp hj

/-- Three instances with a key each, and room for three keys. -/
theorem merges_three :
    Associates TopK.merge TopK.Alike (oneTop 3 1) (oneTop 3 2) (oneTop 3 3) ∧
      Commutes FirstSeen.merge FirstSeen.Alike (oneSeen 3 1) (oneSeen 3 2) ∧
      ¬Commutes FirstSeen.merge FirstSeen.Alike (oneSeen 1 1) (oneSeen 1 2) ∧
      Associates FirstSeen.merge FirstSeen.Alike (oneSeen 3 1) (oneSeen 3 2) (oneSeen 3 3) ∧
      Associates RollingRate.merge RollingRate.Alike (oneRate 3 1) (oneRate 3 2) (oneRate 3 3) := by
  obtain ⟨htop, hseen, hrate⟩ := merges_of_room ℕ (BitVec 64)
  have hthree := hseen (oneSeen 3 1) (oneSeen 3 2) (oneSeen 3 3) rfl rfl rfl rfl
  have hone := hseen (oneSeen 1 1) (oneSeen 1 2) (oneSeen 1 2) rfl rfl rfl rfl
  refine ⟨(htop (oneTop 3 1) (oneTop 3 2) (oneTop 3 3) rfl rfl).2 (by decide +kernel),
    hthree.1.mpr (by decide +kernel), fun h => absurd (hone.1.mp h) (by decide +kernel),
    hthree.2 (by decide +kernel),
    (hrate (oneRate 3 1) (oneRate 3 2) (oneRate 3 3) rfl rfl rfl rfl rfl rfl).2 fun t n hn => ?_⟩
  cases hn
  exact Finset.card_le_card (Finset.union_subset_union
    (Finset.union_subset_union (keysAt_oneRate 1 t) (keysAt_oneRate 2 t)) (keysAt_oneRate 3 t))

/-- With room for one key, and the same keys as in `merge_squeezes`, the grouping does not matter if the
second instance has a greater count. -/
example : Associates TopK.merge (fun t t' => t.top = t'.top) (oneTop 1 1)
    ((TopK.new 1).observeN 2 5) (oneTop 1 3) := by
  unfold Associates
  decide +kernel

/-- With room for one key only, the grouping matters to `TopK`, and the order to `FirstSeen` and
`RollingRate`. -/
theorem merge_squeezes :
    (((oneTop 1 1).merge (oneTop 1 2)).merge (oneTop 1 3)).estimate 3 ≠
        ((oneTop 1 1).merge ((oneTop 1 2).merge (oneTop 1 3))).estimate 3 ∧
      ((oneSeen 1 1).merge (oneSeen 1 2)).seen 1 .zero ≠
        ((oneSeen 1 2).merge (oneSeen 1 1)).seen 1 .zero ∧
      ((oneRate 1 1).merge (oneRate 1 2)).sum 1 .zero ≠
        ((oneRate 1 2).merge (oneRate 1 1)).sum 1 .zero := by
  decide +kernel

end Flowscope.Correlate
