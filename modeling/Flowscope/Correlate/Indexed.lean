import Flowscope.Lib.Lru
import Flowscope.Reassembly.Basic

/-!
# A cache whose values age

`KeyIndexed` (`src/correlate/indexed.rs`) keeps values for a time. A value ages from when it was inserted:
neither reading it nor writing to it makes it younger. What is too old is not given any more, and is
dropped with `evictExpired`.
-/

namespace Flowscope.Correlate

/-- A cache of values, each with the time when it was inserted. -/
structure KeyIndexed (K V : Type) where
  ttl : Duration
  inner : LruCache K (V × Timestamp)

namespace KeyIndexed

variable {K V : Type} [DecidableEq K]

/-- A cache with room for `capacity` values, and for at least one. -/
def new (ttl : Duration) (capacity : ℕ) : KeyIndexed K V :=
  ⟨ttl, .new (max capacity 1) (Nat.lt_of_lt_of_le Nat.one_pos (Nat.le_max_right _ _))⟩

/-- What was inserted at `inserted` is too old. -/
def expired (q : KeyIndexed K V) (inserted now : Timestamp) : Bool :=
  q.ttl < now.saturatingSub inserted

/-- A value comes in; the key counts as used. -/
def insert (q : KeyIndexed K V) (key : K) (value : V) (ts : Timestamp) : KeyIndexed K V :=
  { q with inner := (q.inner.push key (value, ts)).1 }

/-- A key that is there is used. -/
def touch (q : KeyIndexed K V) (key : K) (value : V) (inserted : Timestamp) : KeyIndexed K V :=
  { q with inner := q.inner.set key (value, inserted) }

/-- The value of a key that is not too old. A key that is there counts as used in any case. -/
def getMut (q : KeyIndexed K V) (key : K) (now : Timestamp) : KeyIndexed K V × Option V :=
  match q.inner.peek key with
  | none => (q, none)
  | some (value, inserted) =>
    (q.touch key value inserted, if q.expired inserted now then none else some value)

/-- Write through the reference that `getMut` gives. -/
def write (q : KeyIndexed K V) (key : K) (value : V) : KeyIndexed K V :=
  match q.inner.peek key with
  | none => q
  | some (_, inserted) => { q with inner := q.inner.set key (value, inserted) }

/-- The value of a key that is not too old, without using it. -/
def peek (q : KeyIndexed K V) (key : K) (now : Timestamp) : Option V :=
  (q.inner.peek key).bind fun e => if q.expired e.2 now then none else some e.1

/-- Take out a key; its value is given even if it is too old. -/
def remove (q : KeyIndexed K V) (key : K) : KeyIndexed K V × Option V :=
  ({ q with inner := q.inner.pop key }, (q.inner.peek key).map Prod.fst)

/-- Drop everything that is too old. -/
def evictExpired (q : KeyIndexed K V) (now : Timestamp) : KeyIndexed K V :=
  let expired := (q.inner.iter.filter fun e => q.expired e.2.2 now).map Prod.fst
  { q with inner := expired.foldl LruCache.pop q.inner }

variable {q : KeyIndexed K V} {key : K} {value : V} {inserted : Timestamp}

/-- What a key that is there gives. -/
theorem getMut_of_some {now : Timestamp}
    (h : q.inner.peek key = some (value, inserted)) : q.getMut key now =
      (q.touch key value inserted, if q.expired inserted now then none else some value) := by
  rw [getMut, h]

/-- Writing to a key that was just used changes its value, and not when it was inserted. -/
theorem sets_write (value' : V) (h : q.inner.peek key = some (value, inserted)) :
    q.inner.Sets key (value, inserted) (value', inserted)
      ((q.touch key value inserted).write key value').inner := by
  have hset := LruCache.sets_set (w := (value, inserted)) h
  have hpk : (q.touch key value inserted).inner.peek key = some (value, inserted) := by
    rw [touch, hset.peek, if_pos rfl]
  rw [write, hpk]
  exact hset.trans (LruCache.sets_set hpk)

/-- Inserting a key that was just used replaces its value. -/
theorem sets_insert (value' : V) (ts : Timestamp) (h : q.inner.peek key = some (value, inserted)) :
    q.inner.Sets key (value, inserted) (value', ts)
      ((q.touch key value inserted).insert key value' ts).inner := by
  have hset := LruCache.sets_set (w := (value, inserted)) h
  have hpk : (q.touch key value inserted).inner.peek key = some (value, inserted) := by
    rw [touch, hset.peek, if_pos rfl]
  rw [insert, LruCache.push_of_some hpk]
  exact hset.trans (LruCache.sets_set hpk)

/-- Writing does not change the TTL. -/
theorem ttl_write : (q.write key value).ttl = q.ttl := by
  unfold write
  split <;> rfl

/-- Taking out other keys leaves a key alone. -/
theorem peek_foldl_pop {c : LruCache K V} {key : K} {keys : List K} (h : key ∉ keys) :
    (keys.foldl LruCache.pop c).peek key = c.peek key := by
  induction keys generalizing c with
  | nil => rfl
  | cons k keys ih =>
    rw [List.mem_cons, not_or] at h
    rw [List.foldl_cons, ih h.2]
    exact AList.lookup_erase_ne h.1

/-- What is not too old stays. -/
theorem peek_evictExpired {q : KeyIndexed K V} {key : K} {now : Timestamp}
    (h : ∀ e, q.inner.peek key = some e → q.expired e.2 now = false) :
    (q.evictExpired now).inner.peek key = q.inner.peek key := by
  refine peek_foldl_pop fun hmem => ?_
  obtain ⟨⟨k, e⟩, he, rfl⟩ := List.mem_map.mp hmem
  obtain ⟨he, hexp⟩ := List.mem_filter.mp he
  exact absurd hexp (by rw [h e (LruCache.mem_iter.mp he)]; exact Bool.false_ne_true)

end KeyIndexed

end Flowscope.Correlate
