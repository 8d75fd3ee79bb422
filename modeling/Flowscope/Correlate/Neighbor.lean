import Flowscope.Correlate.Indexed

/-!
# The table of neighbours

`NeighborTable` (`src/correlate/neighbor_table.rs`) remembers the link-layer address of each network
address, and says for each sighting whether the binding is new, the same or changed. It keeps its rows
in a `KeyIndexed` (`src/correlate/indexed.rs`), a cache whose rows age from when they were inserted.

A row is not inserted anew when the binding is seen again. So a binding that is seen all the time still
ages, and once it was inserted longer ago than the TTL, the next sighting counts as the first one,
whatever address it carries. `observe_detects_iff` says that this is the only way in which an answer
can be wrong.
-/

namespace Flowscope.Correlate

open List

/-- Add one to a 32-bit counter that saturates. -/
def succU32 (n : ℕ) : ℕ := min (n + 1) (2^32 - 1)

/-- What is known of one network address. -/
structure NeighborBinding (L4 : Type) where
  addr : L4
  first_seen : Timestamp
  last_seen : Timestamp
  /-- How often it was seen. -/
  seen_count : ℕ
  /-- How often the link-layer address changed. -/
  change_count : ℕ
  /-- The address before the last change. -/
  prior_addr : Option L4
deriving DecidableEq, Repr

/-- What a sighting comes to. -/
inductive NeighborEvent (L4 : Type) where
  | newBinding (addr : L4)
  | refresh
  | changed (prior new : L4)
deriving DecidableEq, Repr

/-- The rows, by network address. -/
structure NeighborTable (L3 L4 : Type) where
  inner : KeyIndexed L3 (NeighborBinding L4)

namespace NeighborTable

variable {L3 L4 : Type} [DecidableEq L3] [DecidableEq L4]

/-- A table without rows. -/
def new (ttl : Duration) (capacity : ℕ) : NeighborTable L3 L4 := ⟨.new ttl capacity⟩

/-- A network address is seen with a link-layer address. -/
def observe (t : NeighborTable L3 L4) (ip : L3) (addr : L4) (now : Timestamp) :
    NeighborTable L3 L4 × NeighborEvent L4 :=
  match t.inner.getMut ip now with
  | (q, some binding) =>
    if binding.addr = addr then
      (⟨q.write ip { binding with last_seen := now, seen_count := succU32 binding.seen_count }⟩,
        .refresh)
    else
      (⟨q.write ip { binding with
          prior_addr := some binding.addr
          addr := addr
          last_seen := now
          change_count := succU32 binding.change_count
          seen_count := succU32 binding.seen_count }⟩,
        .changed binding.addr addr)
  | (q, none) =>
    (⟨q.insert ip ⟨addr, now, now, 1, 0, none⟩ now⟩, .newBinding addr)

/-- The row of a network address, and when it was inserted. -/
def row (t : NeighborTable L3 L4) (ip : L3) : Option (NeighborBinding L4 × Timestamp) :=
  t.inner.inner.peek ip

/-! ## One sighting -/

variable {t : NeighborTable L3 L4} {ip : L3} {addr : L4} {now : Timestamp}

/-- What a sighting does to the rows: the row of the address tells of this sighting, and it was
inserted now or keeps the time at which it was. -/
structure Notes (t : NeighborTable L3 L4) (ip : L3) (addr : L4) (now : Timestamp)
    (t' : NeighborTable L3 L4) : Prop where
  ttl : t'.inner.ttl = t.inner.ttl
  cap : t'.inner.inner.cap = t.inner.inner.cap
  len : t'.inner.inner.len = if (t.row ip).isSome then t.inner.inner.len else t.inner.inner.len + 1
  row : ∃ b inserted, t'.row ip = some (b, inserted) ∧ b.addr = addr ∧ b.last_seen = now ∧
    (inserted = now ∨ ∃ b', t.row ip = some (b', inserted))
  other : ∀ j, j ≠ ip → t'.row j = t.row j

theorem observe_of_none (h : t.row ip = none) : t.observe ip addr now =
    (⟨t.inner.insert ip ⟨addr, now, now, 1, 0, none⟩ now⟩, .newBinding addr) := by
  have hget : t.inner.getMut ip now = (t.inner, none) := by
    rw [KeyIndexed.getMut, show t.inner.inner.peek ip = none from h]
  rw [observe, hget]

variable {inserted : Timestamp} {b : NeighborBinding L4}

/-- A sighting of an address whose row is too old. -/
theorem observe_of_expired
    (h : t.row ip = some (b, inserted)) (hexp : t.inner.expired inserted now = true) :
    t.observe ip addr now =
      (⟨(t.inner.touch ip b inserted).insert ip ⟨addr, now, now, 1, 0, none⟩ now⟩,
        .newBinding addr) := by
  rw [observe, KeyIndexed.getMut_of_some h, if_pos hexp]

/-- A sighting of an address whose row is not too old. -/
theorem observe_of_live (addr : L4)
    (h : t.row ip = some (b, inserted)) (hexp : t.inner.expired inserted now = false) :
    ∃ b', t.observe ip addr now = (⟨(t.inner.touch ip b inserted).write ip b'⟩,
        if b.addr = addr then .refresh else .changed b.addr addr) ∧
      b'.addr = addr ∧ b'.last_seen = now := by
  rw [observe, KeyIndexed.getMut_of_some h, if_neg (by rw [hexp]; exact Bool.false_ne_true)]
  dsimp only
  split_ifs with had
  · exact ⟨_, rfl, had, rfl⟩
  · exact ⟨_, rfl, rfl, rfl⟩

omit [DecidableEq L4] in
/-- A sighting with a row changes the row. -/
theorem notes_of_sets {b' : NeighborBinding L4} {inserted' : Timestamp}
    {t' : NeighborTable L3 L4} (httl : t'.inner.ttl = t.inner.ttl)
    (h : t.inner.inner.Sets ip (b, inserted) (b', inserted') t'.inner.inner)
    (had : b'.addr = addr) (hsn : b'.last_seen = now)
    (hid : inserted' = now ∨ inserted' = inserted) : t.Notes ip addr now t' := by
  have hrow : t.row ip = some (b, inserted) := h.present
  have hrw' : t'.row ip = some (b', inserted') := by rw [row, h.peek, if_pos rfl]
  refine ⟨httl, h.cap, ?_, ⟨b', inserted', hrw', had, hsn, ?_⟩, fun j hj => ?_⟩
  · rw [hrow]
    exact h.len
  · rcases hid with rfl | rfl
    · exact .inl rfl
    · exact .inr ⟨b, hrow⟩
  · rw [row, h.peek, if_neg hj, row]

/-- Every sighting is noted, where there is room for a new row. -/
theorem notes_observe (hrm : t.row ip = none → t.inner.inner.len < t.inner.inner.cap) :
    t.Notes ip addr now (t.observe ip addr now).1 := by
  cases hrow : t.row ip with
  | none =>
    rw [observe_of_none hrow]
    have hads := LruCache.adds_push hrow (hrm hrow) (⟨addr, now, now, 1, 0, none⟩, now)
    refine ⟨rfl, hads.cap, ?_, ⟨_, now, (hads.peek ip).trans (if_pos rfl), rfl, rfl, .inl rfl⟩,
      fun j hj => (hads.peek j).trans (if_neg hj)⟩
    rw [hrow]
    exact hads.len
  | some r =>
    obtain ⟨b, inserted⟩ := r
    cases hexp : t.inner.expired inserted now with
    | true =>
      rw [observe_of_expired hrow hexp]
      exact notes_of_sets rfl (KeyIndexed.sets_insert _ now hrow) rfl rfl (.inl rfl)
    | false =>
      obtain ⟨b', hobs, had, hsn⟩ := observe_of_live addr hrow hexp
      rw [hobs]
      exact notes_of_sets KeyIndexed.ttl_write (KeyIndexed.sets_write b' hrow) had hsn (.inr rfl)

end NeighborTable

/-! ## What was seen -/

/-- A network address was seen with a link-layer address. -/
structure Sighting (L3 L4 : Type) where
  ip : L3
  addr : L4
  now : Timestamp
deriving DecidableEq, Repr

variable {L3 L4 : Type} [DecidableEq L3]

/-- The latest sighting of a network address. -/
def latest (seen : List (Sighting L3 L4)) (ip : L3) : Option (Sighting L3 L4) :=
  (seen.filter (·.ip = ip)).getLast?

/-- One sighting comes no earlier than another. -/
def Sighting.Before (o o' : Sighting L3 L4) : Prop := o.now.toDuration ≤ o'.now.toDuration

instance : DecidableRel (Sighting.Before : Sighting L3 L4 → Sighting L3 L4 → Prop) :=
  fun _ _ => inferInstanceAs (Decidable (_ ≤ _))

theorem latest_append (seen : List (Sighting L3 L4)) (o : Sighting L3 L4) (ip : L3) :
    latest (seen ++ [o]) ip = if ip = o.ip then some o else latest seen ip := by
  by_cases h : ip = o.ip
  · have hone : [o].filter (·.ip = ip) = [o] := by simp [h]
    rw [if_pos h, latest, filter_append, hone]
    exact getLast?_concat
  · have hone : [o].filter (·.ip = ip) = [] := by simpa using fun hip : o.ip = ip => h hip.symm
    rw [if_neg h, latest, filter_append, hone, append_nil, latest]

theorem latest_eq_none {seen : List (Sighting L3 L4)} {ip : L3} :
    latest seen ip = none ↔ ip ∉ (seen.map (·.ip)).toFinset := by
  rw [latest]
  simp

theorem card_ips_le (seen : List (Sighting L3 L4)) (o : Sighting L3 L4) :
    (seen.map (·.ip)).toFinset.card ≤ ((seen ++ [o]).map (·.ip)).toFinset.card := by
  apply Finset.card_le_card
  rw [map_append, toFinset_append]
  exact Finset.subset_union_left

theorem mem_of_latest {seen : List (Sighting L3 L4)} {ip : L3} {o : Sighting L3 L4}
    (h : latest seen ip = some o) : o ∈ seen ∧ o.ip = ip := by
  simpa using mem_of_getLast? h

/-- All sightings of an address come before the latest one. -/
theorem before_latest {seen : List (Sighting L3 L4)} (hsr : seen.Pairwise Sighting.Before)
    {ip : L3} {o : Sighting L3 L4} (h : latest seen ip = some o) {o' : Sighting L3 L4}
    (hmem : o' ∈ seen) (hip : o'.ip = ip) : o'.Before o := by
  obtain ⟨l, hl⟩ := getLast?_eq_some_iff.mp h
  have hpa : (l ++ [o]).Pairwise Sighting.Before := hl ▸ hsr.filter _
  have hmm' : o' ∈ l ++ [o] := hl ▸ mem_filter.mpr ⟨hmem, by simpa using hip⟩
  rcases mem_append.mp hmm' with hin | hin
  · exact (pairwise_append.mp hpa).2.2 o' hin o (mem_singleton_self o)
  · rw [mem_singleton.mp hin]
    exact Nat.le_refl _

variable {ttl : Duration} {seen : List (Sighting L3 L4)}

/-- What the answer to a sighting is for: to say whether the address changed since the latest sighting,
and whether there was none within the TTL. -/
structure Detects (ttl : Duration) (seen : List (Sighting L3 L4)) (o : Sighting L3 L4)
    (event : NeighborEvent L4) : Prop where
  changed : ∀ prior new, event = .changed prior new ↔ new = o.addr ∧ prior ≠ o.addr ∧
    ∃ o', latest seen o.ip = some o' ∧ o'.addr = prior ∧ o.now.saturatingSub o'.now ≤ ttl
  newBinding : ∀ addr, event = .newBinding addr ↔ addr = o.addr ∧
    ∀ o' ∈ seen, o'.ip = o.ip → ttl < o.now.saturatingSub o'.now

variable {o o' : Sighting L3 L4}

/-- There was no sighting within the TTL if the latest one is too old. -/
theorem stale_iff (hsr : seen.Pairwise Sighting.Before) (hlt : latest seen o.ip = some o') :
    (∀ o'' ∈ seen, o''.ip = o.ip → ttl < o.now.saturatingSub o''.now) ↔
      ttl < o.now.saturatingSub o'.now := by
  obtain ⟨hmem, hip⟩ := mem_of_latest hlt
  refine ⟨fun h => h o' hmem hip, fun h o'' hmm' hip' => h.trans_le ?_⟩
  exact Nat.sub_le_sub_left (before_latest hsr hlt hmm' hip') _

theorem detects_of_none (h : latest seen o.ip = none) :
    Detects ttl seen o (.newBinding o.addr) where
  changed _ _ := ⟨nofun, fun ⟨_, _, o', hlt, _⟩ => nomatch h.symm.trans hlt⟩
  newBinding addr := by
    have hnn : ∀ o' ∈ seen, o'.ip = o.ip → ttl < o.now.saturatingSub o'.now := by
      intro o' hmem hip
      have hin : o.ip ∈ (seen.map (·.ip)).toFinset :=
        mem_toFinset.mpr (mem_map.mpr ⟨o', hmem, hip⟩)
      exact absurd hin (latest_eq_none.mp h)
    rw [NeighborEvent.newBinding.injEq]
    exact ⟨fun had => ⟨had.symm, hnn⟩, fun had => had.1.symm⟩

/-- A sighting after another one that is too old. -/
theorem detects_of_stale (hsr : seen.Pairwise Sighting.Before)
    (hlt : latest seen o.ip = some o') (hst : ttl < o.now.saturatingSub o'.now) :
    Detects ttl seen o (.newBinding o.addr) where
  changed _ _ := by
    refine ⟨nofun, fun ⟨_, _, o'', hlt', _, hle⟩ => ?_⟩
    cases hlt.symm.trans hlt'
    exact absurd hle (Nat.not_le_of_lt hst)
  newBinding addr := by
    rw [stale_iff hsr hlt, NeighborEvent.newBinding.injEq]
    exact ⟨fun had => ⟨had.symm, hst⟩, fun had => had.1.symm⟩

/-- A sighting of an address that was seen within the TTL is not a first one. -/
theorem not_detects_newBinding (hlt : latest seen o.ip = some o')
    (hrc : o.now.saturatingSub o'.now ≤ ttl) : ¬ Detects ttl seen o (.newBinding o.addr) := by
  intro h
  obtain ⟨hmem, hip⟩ := mem_of_latest hlt
  have hst := ((h.newBinding o.addr).mp rfl).2 o' hmem hip
  exact absurd hrc (Nat.not_le_of_lt hst)

variable [DecidableEq L4]

/-- A sighting after another one within the TTL. -/
theorem detects_of_recent (hsr : seen.Pairwise Sighting.Before)
    (hlt : latest seen o.ip = some o') (hrc : o.now.saturatingSub o'.now ≤ ttl) :
    Detects ttl seen o (if o'.addr = o.addr then .refresh else .changed o'.addr o.addr) where
  changed prior new := by
    split_ifs with had
    · refine ⟨nofun, fun ⟨_, hne, o'', hlt', hpr, _⟩ => ?_⟩
      cases hlt.symm.trans hlt'
      exact absurd (hpr.symm.trans had) hne
    · rw [NeighborEvent.changed.injEq]
      constructor
      · rintro ⟨rfl, rfl⟩
        exact ⟨rfl, had, o', hlt, rfl, hrc⟩
      · rintro ⟨rfl, -, o'', hlt', rfl, -⟩
        cases hlt.symm.trans hlt'
        exact ⟨rfl, rfl⟩
  newBinding addr := by
    rw [stale_iff hsr hlt]
    refine ⟨fun h => ?_, fun h => absurd hrc (Nat.not_le_of_lt h.2)⟩
    split_ifs at h

namespace NeighborTable

/-- The table after some sightings. -/
def run (t : NeighborTable L3 L4) (seen : List (Sighting L3 L4)) : NeighborTable L3 L4 :=
  seen.foldl (fun t o => (t.observe o.ip o.addr o.now).1) t

/-- The table tells of the latest sighting of every address, and no row was inserted after it. -/
structure Remembers (ttl : Duration) (cap : ℕ) (seen : List (Sighting L3 L4))
    (t : NeighborTable L3 L4) : Prop where
  ttl : t.inner.ttl = ttl
  cap : t.inner.inner.cap = cap
  len : t.inner.inner.len = (seen.map (·.ip)).toFinset.card
  none : ∀ ip, t.row ip = none ↔ latest seen ip = none
  some : ∀ ip b inserted, t.row ip = some (b, inserted) →
    ∃ o, latest seen ip = some o ∧ o.addr = b.addr ∧ o.now = b.last_seen ∧
      inserted.toDuration ≤ b.last_seen.toDuration

omit [DecidableEq L4] in
theorem remembers_nil (ttl : Duration) (capacity : ℕ) :
    Remembers ttl (max capacity 1) [] (new ttl capacity : NeighborTable L3 L4) where
  ttl := rfl
  cap := rfl
  len := rfl
  none _ := ⟨fun _ => rfl, fun _ => rfl⟩
  some _ _ _ h := nomatch h

variable {cap : ℕ} {t : NeighborTable L3 L4}

/-- A table that remembers what was seen remembers the next sighting. -/
theorem Remembers.observe (h : t.Remembers ttl cap seen) (hsr : ∀ o' ∈ seen, o'.Before o)
    (hrm : ((seen ++ [o]).map (·.ip)).toFinset.card ≤ cap) :
    (t.observe o.ip o.addr o.now).1.Remembers ttl cap (seen ++ [o]) := by
  have hips : ((seen ++ [o]).map (·.ip)).toFinset = insert o.ip (seen.map (·.ip)).toFinset := by
    rw [map_append, toFinset_append, Finset.union_comm]
    rfl
  have hnt : t.Notes o.ip o.addr o.now (t.observe o.ip o.addr o.now).1 := by
    apply notes_observe
    intro hnn
    rw [hips, Finset.card_insert_of_notMem (latest_eq_none.mp ((h.none _).mp hnn))] at hrm
    rw [h.len, h.cap]
    exact hrm
  obtain ⟨b, inserted, hrow, had, hsn, hid⟩ := hnt.row
  refine ⟨hnt.ttl.trans h.ttl, hnt.cap.trans h.cap, ?_, fun ip => ?_, fun ip b' inserted' => ?_⟩
  · rw [hnt.len, hips]
    cases hold : t.row o.ip with
    | none =>
      rw [Finset.card_insert_of_notMem (latest_eq_none.mp ((h.none _).mp hold)), ← h.len]
      rfl
    | some r =>
      have hin : o.ip ∈ (seen.map (·.ip)).toFinset := by
        by_contra hnot
        rw [← latest_eq_none, ← h.none, hold] at hnot
        exact nomatch hnot
      rw [Finset.insert_eq_of_mem hin, ← h.len]
      rfl
  · rw [latest_append]
    by_cases hip : ip = o.ip
    · rw [hip, hrow, if_pos rfl]
      exact ⟨nofun, nofun⟩
    · rw [hnt.other ip hip, if_neg hip, h.none]
  · rw [latest_append]
    by_cases hip : ip = o.ip
    · rw [hip, hrow, if_pos rfl]
      rintro ⟨⟩
      refine ⟨o, rfl, had.symm, hsn.symm, ?_⟩
      -- the row was inserted now, or before an earlier sighting
      rcases hid with rfl | ⟨b0, hold⟩
      · rw [hsn]
      · obtain ⟨o0, hlt, -, hnow, hle⟩ := h.some _ _ _ hold
        rw [hsn]
        exact hle.trans (hnow ▸ hsr o0 (mem_of_latest hlt).1)
    · rw [hnt.other ip hip, if_neg hip]
      exact h.some ip b' inserted'

theorem remembers_run (ttl : Duration) {capacity : ℕ} (hsr : seen.Pairwise Sighting.Before)
    (hrm : (seen.map (·.ip)).toFinset.card ≤ capacity) :
    ((new ttl capacity).run seen).Remembers ttl (max capacity 1) seen := by
  induction seen using reverseRecOn with
  | nil => exact remembers_nil ttl capacity
  | append_singleton seen o ih =>
    rw [pairwise_append] at hsr
    rw [run, foldl_append]
    exact (ih hsr.1 ((card_ips_le seen o).trans hrm)).observe
      (fun o' hmem => hsr.2.2 o' hmem o (mem_singleton_self o))
      (hrm.trans (Nat.le_max_left _ _))

/-- The row of an address is too old, although the address was seen within the TTL. -/
def aged (t : NeighborTable L3 L4) (ip : L3) (now : Timestamp) : Bool :=
  match t.row ip with
  | none => false
  | some (b, inserted) => t.inner.expired inserted now && !t.inner.expired b.last_seen now

/-- The answer to a sighting is right unless the row of the address is too old although the address
was seen within the TTL. -/
theorem observe_detects_iff {capacity : ℕ} {o : Sighting L3 L4}
    (hsorted : (seen ++ [o]).Pairwise Sighting.Before)
    (hroom : ((seen ++ [o]).map (·.ip)).toFinset.card ≤ capacity) :
    Detects ttl seen o (((new ttl capacity).run seen).observe o.ip o.addr o.now).2 ↔
      ((new ttl capacity).run seen).aged o.ip o.now = false := by
  have hsn := (pairwise_append.mp hsorted).1
  have h := remembers_run ttl hsn ((card_ips_le seen o).trans hroom)
  generalize (new ttl capacity).run seen = t at h
  cases hrow : t.row o.ip with
  | none =>
    rw [observe_of_none hrow, aged, hrow]
    exact ⟨fun _ => rfl, fun _ => detects_of_none ((h.none _).mp hrow)⟩
  | some r =>
    obtain ⟨b, inserted⟩ := r
    obtain ⟨o', hlt, had, hnow, hid⟩ := h.some _ _ _ hrow
    have hex : ∀ ts, t.inner.expired ts o.now = decide (ttl < o.now.saturatingSub ts) := by
      intro ts
      rw [KeyIndexed.expired, h.ttl]
    rw [aged, hrow, Bool.and_eq_false_iff, Bool.not_eq_false', hex b.last_seen, ← hnow,
      decide_eq_true_eq]
    cases hexp : t.inner.expired inserted o.now with
    | true =>
      rw [observe_of_expired hrow hexp]
      constructor
      · intro hdet
        by_contra hnot
        have hrc : o.now.saturatingSub o'.now ≤ ttl := by simpa using hnot
        exact not_detects_newBinding hlt hrc hdet
      · rintro (hf | hst)
        · exact nomatch hf
        · exact detects_of_stale hsn hlt hst
    | false =>
      obtain ⟨b', hobs, -, -⟩ := observe_of_live o.addr hrow hexp
      rw [hobs, ← had]
      refine ⟨fun _ => .inl rfl, fun _ => detects_of_recent hsn hlt ?_⟩
      -- a row that is not too old was seen within the TTL
      rw [hex, decide_eq_false_iff_not, Nat.not_lt] at hexp
      refine (Nat.sub_le_sub_left ?_ _).trans hexp
      rw [hnow]
      exact hid

/-- An address that changes within the TTL is told so. -/
theorem observe_detects_change :
    Detects (60 * 10^9) [⟨1, 7, ⟨0, 0⟩⟩] ⟨1, 8, ⟨10, 0⟩⟩
      (((new (60 * 10^9) 1).run [⟨1, 7, ⟨0, 0⟩⟩]).observe 1 8 ⟨10, 0⟩ :
        NeighborTable ℕ ℕ × NeighborEvent ℕ).2 :=
  (observe_detects_iff (by decide) (by decide)).mpr (by decide)

/-- An address that is seen again and again and changes 20 s after it was last seen, 70 s after it was
first seen, is taken for a new one. -/
theorem observe_misses_change :
    (((new (60 * 10^9) 1).run [⟨1, 7, ⟨0, 0⟩⟩, ⟨1, 7, ⟨50, 0⟩⟩]).observe 1 8 ⟨70, 0⟩ :
        NeighborTable ℕ ℕ × NeighborEvent ℕ).2 = .newBinding 8 ∧
      ¬ Detects (60 * 10^9) [⟨1, 7, ⟨0, 0⟩⟩, ⟨1, 7, ⟨50, 0⟩⟩] ⟨1, 8, ⟨70, 0⟩⟩
        (((new (60 * 10^9) 1).run [⟨1, 7, ⟨0, 0⟩⟩, ⟨1, 7, ⟨50, 0⟩⟩]).observe 1 8 ⟨70, 0⟩ :
          NeighborTable ℕ ℕ × NeighborEvent ℕ).2 := by
  have hev : (((new (60 * 10^9) 1).run [⟨1, 7, ⟨0, 0⟩⟩, ⟨1, 7, ⟨50, 0⟩⟩]).observe 1 8 ⟨70, 0⟩ :
      NeighborTable ℕ ℕ × NeighborEvent ℕ).2 = .newBinding 8 := by decide
  refine ⟨hev, ?_⟩
  have hlt : latest [⟨1, 7, ⟨0, 0⟩⟩, ⟨1, 7, ⟨50, 0⟩⟩] 1 = some ⟨1, 7, ⟨50, 0⟩⟩ := by decide
  exact not_detects_newBinding hlt (by decide)

end NeighborTable

end Flowscope.Correlate
