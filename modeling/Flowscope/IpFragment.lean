import Flowscope.Lib.OrdMap
import Flowscope.Lib.Table
import Flowscope.Reassembly.Basic

/-!
# IP fragment reassembly

The reassembler of `src/ip_fragment.rs`: fragments of a datagram, found by source, destination,
protocol and identification, wait until together they reach from its first byte to its last.

The module's policy for fragments that overlap is to drop the datagram. The code drops what it holds
of it, and then forgets that it did: `poisoned`, which would make it refuse the key, is never set.
`datagram_after_overlap` is a run where the fragments that follow an overlap make a datagram. Where no
stretch of them covers one, none is made (`no_datagram_after_overlap`).

Between the code and the arrivals stands the *group* of a key, the fragments pushed since the key's
state was last dropped (`group`). It is connected to the code through the state that the code keeps for
the key (`Held`), step by step (`Holds.push`) and then over a run (`Holds.pushAll`); that the code's
test for a complete datagram, which walks the fragments in order, is that they cover the datagram byte
for byte, is `isContiguous_eq_true`.
-/

namespace Flowscope

open List

/-- An address, of either family. -/
inductive IpAddr where
  | v4 (addr : BitVec 32)
  | v6 (addr : BitVec 128)
deriving DecidableEq, Repr

/-- What the fragments of one datagram share. -/
structure FragmentKey where
  src : IpAddr
  dst : IpAddr
  protocol : UInt8
  id : UInt32
deriving DecidableEq, Repr

/-- The bounds of a reassembler. -/
structure FragmentConfig where
  /-- How many datagrams may be incomplete at once. -/
  max_datagrams : ℕ
  /-- How many bytes of one datagram may be held, and how far it may reach. -/
  max_datagram_bytes : ℕ
  /-- How long a datagram may stay incomplete. -/
  timeout : Duration
deriving DecidableEq, Repr

def FragmentConfig.default : FragmentConfig := ⟨4096, 65535, 30 * 10^9⟩

/-- An incomplete datagram. -/
structure Reassembly where
  /-- The fragments, by byte offset. -/
  fragments : OrdMap ℕ (List UInt8)
  /-- The length of the datagram, known from its last fragment. -/
  total_len : Option ℕ
  /-- The bytes taken in. -/
  buffered : ℕ
  first_seen : Timestamp
  poisoned : Bool

/-- A datagram of which nothing has arrived. -/
def Reassembly.new (now : Timestamp) : Reassembly := ⟨.empty, none, 0, now, false⟩

/-- Some stored fragment meets the bytes from `offset` up to `end_`. -/
def Reassembly.overlaps (r : Reassembly) (offset end_ : ℕ) : Bool :=
  r.fragments.entries.any fun e => offset < e.1 + e.2.length ∧ e.1 < end_

def Reassembly.store (r : Reassembly) (offset : ℕ) (more_fragments : Bool) (payload : List UInt8)
    (end_ : ℕ) : Reassembly :=
  { r with
    buffered := r.buffered + payload.length
    fragments := r.fragments.insert offset payload
    total_len := if more_fragments then r.total_len else some end_ }

/-- Walk the fragments in order: each starts where the one before it ends, from `expected` on. Where
they end, if they do. -/
def contiguousFrom (expected : ℕ) : List (ℕ × List UInt8) → Option ℕ
  | [] => some expected
  | (offset, data) :: rest =>
    if offset = expected then contiguousFrom (expected + data.length) rest else none

/-- The fragments are contiguous from byte 0 to `total`. -/
def isContiguous (fragments : OrdMap ℕ (List UInt8)) (total : ℕ) : Bool :=
  contiguousFrom 0 fragments.entries = some total

/-- The incomplete datagrams, and what became of others. -/
structure IpFragmentReassembler where
  pending : Table FragmentKey Reassembly
  config : FragmentConfig
  reassembled : ℕ
  timed_out : ℕ
  overlaps : ℕ
  oversize_dropped : ℕ

namespace IpFragmentReassembler

/-- A reassembler that has seen nothing. -/
def withConfig (config : FragmentConfig) : IpFragmentReassembler := ⟨∅, config, 0, 0, 0, 0⟩

/-- Drop the datagrams whose first fragment is older than the timeout. -/
def evictExpired (r : IpFragmentReassembler) (now : Timestamp) : IpFragmentReassembler :=
  let kept := r.pending.retain fun _ d => now.saturatingSub d.first_seen ≤ r.config.timeout
  { r with pending := kept, timed_out := r.timed_out + (r.pending.size - kept.size) }

/-- Drop a datagram that has waited longest. Between several the program takes the one that its hash
map lists first, here the one inserted last. -/
def dropOldest (r : IpFragmentReassembler) : IpFragmentReassembler :=
  match r.pending.entries.argmin fun e => e.2.first_seen.toDuration with
  | none => r
  | some e => { r with pending := r.pending.erase e.1 }

/-- Make room for a key: drop what is too old, and for a new key the oldest if there are too many. -/
def makeRoom (r : IpFragmentReassembler) (key : FragmentKey) (now : Timestamp) :
    IpFragmentReassembler :=
  let r := r.evictExpired now
  if key ∉ r.pending ∧ r.config.max_datagrams ≤ r.pending.size then r.dropOldest else r

/-- Feed one fragment, and give the datagram that it completes. What is not a fragment is given back
as it is. -/
def push (r : IpFragmentReassembler) (key : FragmentKey) (offset : ℕ) (more_fragments : Bool)
    (payload : List UInt8) (now : Timestamp) : IpFragmentReassembler × Option (List UInt8) :=
  if offset = 0 ∧ more_fragments = false then (r, some payload)
  else
    let r := r.makeRoom key now
    let cap := r.config.max_datagram_bytes
    let entry := (r.pending.lookup key).getD (.new now)
    let r := { r with pending := r.pending.insert key entry }
    if entry.poisoned then (r, none)
    else
      let end_ := min (offset + payload.length) (2^64 - 1)
      if entry.overlaps offset end_ then
        ({ r with overlaps := r.overlaps + 1, pending := r.pending.erase key }, none)
      else if cap < entry.buffered + payload.length ∨ cap < end_ then
        ({ r with oversize_dropped := r.oversize_dropped + 1, pending := r.pending.erase key },
          none)
      else
        let entry := entry.store offset more_fragments payload end_
        let r := { r with pending := r.pending.insert key entry }
        match entry.total_len with
        | none => (r, none)
        | some total =>
          if isContiguous entry.fragments total then
            ({ r with pending := r.pending.erase key, reassembled := r.reassembled + 1 },
              some (entry.fragments.entries.flatMap Prod.snd))
          else (r, none)

end IpFragmentReassembler

/-! ## What a push is given, and the group of a key -/

/-- What one push for a key is given. -/
structure Arrival where
  offset : ℕ
  more_fragments : Bool
  payload : List UInt8
  now : Timestamp
  /-- Its end is an offset. -/
  fits : offset + payload.length < 2^64

namespace Arrival

/-- The offset past its last byte. -/
def end_ (f : Arrival) : ℕ := f.offset + f.payload.length

/-- It is part of a datagram, not a whole one. -/
def IsFragment (f : Arrival) : Prop := ¬(f.offset = 0 ∧ f.more_fragments = false)

/-- Two arrivals share a byte of the datagram. -/
def Overlaps (f g : Arrival) : Prop :=
  ∃ i, (f.offset ≤ i ∧ i < f.end_) ∧ g.offset ≤ i ∧ i < g.end_

/-- The test that the code makes: as `Overlaps`, but also met by an empty arrival within another. -/
def Meets (f g : Arrival) : Prop := f.offset < g.end_ ∧ g.offset < f.end_

instance (f : Arrival) : Decidable f.IsFragment := inferInstanceAs (Decidable (¬_))

instance (f g : Arrival) : Decidable (f.Meets g) := inferInstanceAs (Decidable (_ ∧ _))

end Arrival

/-- Of several arrivals at one offset, only the last is kept. -/
def kept : List Arrival → List Arrival
  | [] => []
  | f :: l => if ∃ g ∈ l, g.offset = f.offset then kept l else f :: kept l

/-- Where the datagram ends, by the last arrival that no more fragments follow. -/
def lastEnd (l : List Arrival) : Option ℕ :=
  ((l.filter fun f => f.more_fragments = false).getLast?).map Arrival.end_

/-- The kept arrivals cover a datagram, byte for byte, and nothing past it. -/
def Covers (l : List Arrival) : Prop :=
  ∃ total, lastEnd l = some total ∧ (∀ f ∈ kept l, f.end_ ≤ total) ∧
    ∀ i < total, ∃ f ∈ kept l, f.offset ≤ i ∧ i < f.end_

/-- Fragment `f` makes the state of a key be dropped whose group is `l`. -/
def Refuses (config : FragmentConfig) (l : List Arrival) (f : Arrival) : Prop :=
  (∃ g ∈ kept l, f.Meets g) ∨
    config.max_datagram_bytes < (l.map fun g => g.payload.length).sum + f.payload.length ∨
    config.max_datagram_bytes < f.end_

/-- What is left of a group when `f` arrives: nothing if its first fragment is too old. -/
def unexpired (config : FragmentConfig) (l : List Arrival) (f : Arrival) : List Arrival :=
  if ∀ g ∈ l.head?, f.now.saturatingSub g.now ≤ config.timeout then l else []

/-- Fragment `f` completes a datagram with the group `l`. -/
def Completes (config : FragmentConfig) (l : List Arrival) (f : Arrival) : Prop :=
  ¬Refuses config (unexpired config l f) f ∧ Covers (unexpired config l f ++ [f])

open Classical in
/-- The group after one more arrival. -/
noncomputable def nextGroup (config : FragmentConfig) (l : List Arrival) (f : Arrival) :
    List Arrival :=
  if ¬f.IsFragment then l
  else if Refuses config (unexpired config l f) f ∨ Completes config l f then []
  else unexpired config l f ++ [f]

/-! ### The code's walk over the fragments, and the bytes that they cover -/

theorem contiguousFrom_eq_some {x total : ℕ} {l : List (ℕ × List UInt8)}
    (hsr : l.Pairwise fun a b => a.1 + a.2.length ≤ b.1) (hfm : ∀ e ∈ l, x ≤ e.1) :
    contiguousFrom x l = some total ↔
      x ≤ total ∧ (∀ e ∈ l, e.1 + e.2.length ≤ total) ∧
        ∀ i, x ≤ i → i < total → ∃ e ∈ l, e.1 ≤ i ∧ i < e.1 + e.2.length := by
  induction l generalizing x with
  | nil =>
    simp only [contiguousFrom, Option.some.injEq, not_mem_nil, false_and, exists_false]
    constructor
    · rintro rfl
      exact ⟨le_rfl, by simp, fun i hx hi => by omega⟩
    · rintro ⟨hle, -, hnn⟩
      by_contra hne
      exact hnn x le_rfl (by omega)
  | cons e rest ih =>
    obtain ⟨o, d⟩ := e
    obtain ⟨hfr, hrs⟩ := pairwise_cons.mp hsr
    have hxo : x ≤ o := hfm (o, d) mem_cons_self
    simp only [contiguousFrom]
    split_ifs with ho
    · subst ho
      rw [ih hrs hfr]
      simp only [forall_mem_cons, exists_mem_cons_iff]
      constructor
      · rintro ⟨hle, hens, hcr⟩
        refine ⟨by omega, ⟨hle, hens⟩, fun i hi hlt => ?_⟩
        by_cases hin : i < o + d.length
        · exact .inl ⟨hi, hin⟩
        · exact .inr (hcr i (by omega) hlt)
      · rintro ⟨-, ⟨hle, hens⟩, hcr⟩
        refine ⟨hle, hens, fun i hi hlt => ?_⟩
        rcases hcr i (by omega) hlt with ⟨-, hin⟩ | hin
        · omega
        · exact hin
    · -- the first fragment starts too late for byte `x`, and the others later still
      simp only [false_iff]
      rintro ⟨-, hens, hcr⟩
      have hend := hens (o, d) mem_cons_self
      obtain ⟨e, he, hle, -⟩ := hcr x le_rfl (by simp only at hend; omega)
      rcases mem_cons.mp he with rfl | he
      · omega
      · have := hfr e he
        omega

/-- The code's test for a complete datagram: the fragments cover it. -/
theorem isContiguous_eq_true {m : OrdMap ℕ (List UInt8)} {total : ℕ}
    (hap : ∀ e ∈ m, ∀ e' ∈ m, e.1 < e'.1 → e.1 + e.2.length ≤ e'.1) :
    isContiguous m total = true ↔
      (∀ e ∈ m, e.1 + e.2.length ≤ total) ∧
        ∀ i < total, ∃ e ∈ m, e.1 ≤ i ∧ i < e.1 + e.2.length := by
  have hsr : m.entries.Pairwise fun a b => a.1 + a.2.length ≤ b.1 :=
    m.sorted.imp_of_mem fun ha hb hlt => hap _ ha _ hb hlt
  rw [isContiguous, decide_eq_true_eq, contiguousFrom_eq_some hsr fun _ _ => Nat.zero_le _]
  simp only [Nat.zero_le, true_and, forall_const]
  rfl

/-! ### The state of a key, and its group -/

theorem mem_kept_append {l : List Arrival} {f g : Arrival} :
    g ∈ kept (l ++ [f]) ↔ g = f ∨ g ∈ kept l ∧ g.offset ≠ f.offset := by
  induction l with
  | nil => simp [kept]
  | cons h l ih =>
    by_cases hl : ∃ g ∈ l, g.offset = h.offset
    · have hl' : ∃ g ∈ l ++ [f], g.offset = h.offset := by
        obtain ⟨g, hg, hoff⟩ := hl
        exact ⟨g, mem_append_left _ hg, hoff⟩
      rw [cons_append, kept, kept, if_pos hl', if_pos hl, ih]
    · by_cases hf : f.offset = h.offset
      · have hl' : ∃ g ∈ l ++ [f], g.offset = h.offset := ⟨f, by simp, hf⟩
        rw [cons_append, kept, kept, if_pos hl', if_neg hl, ih, mem_cons]
        constructor
        · rintro (rfl | ⟨hg, hne⟩)
          · exact .inl rfl
          · exact .inr ⟨.inr hg, hne⟩
        · rintro (rfl | ⟨rfl | hg, hne⟩)
          · exact .inl rfl
          · exact absurd hf.symm hne
          · exact .inr ⟨hg, hne⟩
      · have hl' : ¬∃ g ∈ l ++ [f], g.offset = h.offset := by
          rintro ⟨g, hg, hoff⟩
          rcases mem_append.mp hg with hg | hg
          · exact hl ⟨g, hg, hoff⟩
          · exact hf (mem_singleton.mp hg ▸ hoff)
        rw [cons_append, kept, kept, if_neg hl', if_neg hl, mem_cons, ih, mem_cons]
        constructor
        · rintro (rfl | rfl | ⟨hg, hne⟩)
          · exact .inr ⟨.inl rfl, Ne.symm hf⟩
          · exact .inl rfl
          · exact .inr ⟨.inr hg, hne⟩
        · rintro (rfl | ⟨rfl | hg, hne⟩)
          · exact .inr (.inl rfl)
          · exact .inl rfl
          · exact .inr (.inr ⟨hg, hne⟩)

theorem lastEnd_append {l : List Arrival} {f : Arrival} :
    lastEnd (l ++ [f]) = if f.more_fragments then lastEnd l else some f.end_ := by
  cases hf : f.more_fragments <;> simp [lastEnd, hf]

/-- The state kept for a key is what its group makes it. -/
structure Held (l : List Arrival) (d : Reassembly) : Prop where
  mem : ∀ e, e ∈ d.fragments ↔ ∃ f ∈ kept l, (f.offset, f.payload) = e
  total_len : d.total_len = lastEnd l
  buffered : d.buffered = (l.map fun f => f.payload.length).sum
  first_seen : ∀ f ∈ l.head?, d.first_seen = f.now
  poisoned : d.poisoned = false
  apart : ∀ f ∈ kept l, ∀ g ∈ kept l, f.offset < g.offset → f.end_ ≤ g.offset

/-- What the reassembler keeps for `key`, if anything, is what the group `l` makes it. -/
def IpFragmentReassembler.Holds (r : IpFragmentReassembler) (key : FragmentKey)
    (l : List Arrival) : Prop :=
  match r.pending.lookup key with
  | none => l = []
  | some d => l ≠ [] ∧ Held l d

namespace Held

variable {l : List Arrival} {d : Reassembly} {f : Arrival}

theorem new (now : Timestamp) : Held [] (.new now) where
  mem e := by simp [kept, Reassembly.new]
  total_len := rfl
  buffered := rfl
  first_seen f hf := by simp at hf
  poisoned := rfl
  apart f hf := by simp [kept] at hf

theorem overlaps (h : Held l d) (f : Arrival) :
    d.overlaps f.offset f.end_ = true ↔ ∃ g ∈ kept l, f.Meets g := by
  simp only [Reassembly.overlaps, any_eq_true, decide_eq_true_eq]
  constructor
  · rintro ⟨e, he, hmt⟩
    obtain ⟨g, hg, rfl⟩ := (h.mem e).mp he
    exact ⟨g, hg, hmt⟩
  · rintro ⟨g, hg, hmt⟩
    exact ⟨(g.offset, g.payload), (h.mem _).mpr ⟨g, hg, rfl⟩, hmt⟩

theorem store (h : Held l d) (hfr : l = [] → d.first_seen = f.now)
    (hnn : ¬∃ g ∈ kept l, f.Meets g) :
    Held (l ++ [f]) (d.store f.offset f.more_fragments f.payload f.end_) where
  mem e := by
    rw [Reassembly.store, OrdMap.mem_insert, h.mem]
    simp only [mem_kept_append]
    constructor
    · rintro (rfl | ⟨⟨g, hg, rfl⟩, hne⟩)
      · exact ⟨f, .inl rfl, rfl⟩
      · exact ⟨g, .inr ⟨hg, hne⟩, rfl⟩
    · rintro ⟨g, rfl | ⟨hg, hne⟩, rfl⟩
      · exact .inl rfl
      · exact .inr ⟨⟨g, hg, rfl⟩, hne⟩
  total_len := by
    rw [lastEnd_append, ← h.total_len]
    rfl
  buffered := by
    rw [Reassembly.store, h.buffered]
    simp
  first_seen g hg := by
    cases l with
    | nil =>
      obtain rfl : f = g := by simpa using hg
      exact hfr rfl
    | cons a l => exact h.first_seen g (by simpa using hg)
  poisoned := h.poisoned
  apart g hg g' hg' hlt := by
    -- two kept fragments of which one is new do not meet
    have hnew : ∀ g ∈ kept l, f.offset < g.offset → f.end_ ≤ g.offset := fun g hg hlt => by
      by_contra hend
      exact hnn ⟨g, hg, by unfold Arrival.end_; omega, by omega⟩
    have hold : ∀ g ∈ kept l, g.offset < f.offset → g.end_ ≤ f.offset := fun g hg hlt => by
      by_contra hend
      exact hnn ⟨g, hg, by omega, by unfold Arrival.end_; omega⟩
    rcases mem_kept_append.mp hg with rfl | ⟨hl, -⟩
    · rcases mem_kept_append.mp hg' with rfl | ⟨hl', -⟩
      · exact absurd hlt (lt_irrefl _)
      · exact hnew g' hl' hlt
    · rcases mem_kept_append.mp hg' with rfl | ⟨hl', -⟩
      · exact hold g hl hlt
      · exact h.apart g hl g' hl' hlt

theorem covers (h : Held l d) :
    Covers l ↔ ∃ total, d.total_len = some total ∧ isContiguous d.fragments total = true := by
  have hap : ∀ e ∈ d.fragments, ∀ e' ∈ d.fragments, e.1 < e'.1 → e.1 + e.2.length ≤ e'.1 := by
    intro e he e' he' hlt
    obtain ⟨f, hf, rfl⟩ := (h.mem e).mp he
    obtain ⟨g, hg, rfl⟩ := (h.mem e').mp he'
    exact h.apart f hf g hg hlt
  have hmem : ∀ P : ℕ × List UInt8 → Prop,
      (∃ e ∈ d.fragments, P e) ↔ ∃ f ∈ kept l, P (f.offset, f.payload) := by
    intro P
    constructor
    · rintro ⟨e, he, hP⟩
      obtain ⟨f, hf, rfl⟩ := (h.mem e).mp he
      exact ⟨f, hf, hP⟩
    · rintro ⟨f, hf, hP⟩
      exact ⟨_, (h.mem _).mpr ⟨f, hf, rfl⟩, hP⟩
  have hall : ∀ P : ℕ × List UInt8 → Prop,
      (∀ e ∈ d.fragments, P e) ↔ ∀ f ∈ kept l, P (f.offset, f.payload) := by
    intro P
    have := hmem fun e => ¬P e
    rw [← not_iff_not]
    simpa using this
  unfold Covers
  rw [← h.total_len]
  refine exists_congr fun total => and_congr_right fun _ => ?_
  rw [isContiguous_eq_true hap, hall]
  refine and_congr Iff.rfl (forall_congr' fun i => ?_)
  rw [hmem]
  rfl

end Held

namespace IpFragmentReassembler

variable {r : IpFragmentReassembler} {key : FragmentKey} {l : List Arrival} {f : Arrival}
variable (now : Timestamp)

theorem lookup_evictExpired :
    (r.evictExpired now).pending.lookup key =
      (r.pending.lookup key).filter fun d => now.saturatingSub d.first_seen ≤ r.config.timeout :=
  Table.lookup_retain

theorem config_dropOldest : r.dropOldest.config = r.config := by
  unfold dropOldest
  split <;> rfl

theorem lookup_dropOldest (h : key ∉ r.pending) : r.dropOldest.pending.lookup key = none := by
  unfold dropOldest
  split
  · exact AList.lookup_eq_none.mpr h
  · exact AList.lookup_eq_none.mpr fun hmem => h (AList.mem_erase.mp hmem).2

theorem config_makeRoom : (r.makeRoom key now).config = r.config := by
  unfold makeRoom
  dsimp only
  split_ifs
  · exact config_dropOldest
  · rfl

/-- Making room drops the state of a key only if it is too old. -/
theorem lookup_makeRoom :
    (r.makeRoom key now).pending.lookup key =
      (r.pending.lookup key).filter fun d => now.saturatingSub d.first_seen ≤ r.config.timeout := by
  rw [← lookup_evictExpired]
  unfold makeRoom
  dsimp only
  split_ifs with hfu
  · rw [lookup_dropOldest hfu.1, AList.lookup_eq_none.mpr hfu.1]
  · rfl

/-- The state that a push works on is that of the unexpired group. -/
theorem Holds.makeRoom (h : r.Holds key l) (f : Arrival) :
    Held (unexpired r.config l f)
      (((r.makeRoom key f.now).pending.lookup key).getD (.new f.now)) ∧
    (unexpired r.config l f = [] →
      (((r.makeRoom key f.now).pending.lookup key).getD (.new f.now)).first_seen = f.now) := by
  rw [lookup_makeRoom]
  unfold Holds at h
  cases hd : r.pending.lookup key with
  | none =>
    rw [hd] at h
    subst h
    exact ⟨.new _, fun _ => rfl⟩
  | some d =>
    rw [hd] at h
    obtain ⟨hne, hhl⟩ := h
    obtain ⟨g, l', rfl⟩ := exists_cons_of_ne_nil hne
    have hfr : d.first_seen = g.now := hhl.first_seen g rfl
    by_cases hold : f.now.saturatingSub g.now ≤ r.config.timeout
    · have : unexpired r.config (g :: l') f = g :: l' := by simp [unexpired, hold]
      rw [this]
      simp only [Option.filter_some, hfr, hold]
      exact ⟨hhl, fun h => absurd h (cons_ne_nil _ _)⟩
    · have : unexpired r.config (g :: l') f = [] := by simp [unexpired, hold]
      rw [this]
      simp only [Option.filter_some, hfr, hold]
      exact ⟨.new _, fun _ => rfl⟩

def pushArrival (r : IpFragmentReassembler) (key : FragmentKey) (f : Arrival) :
    IpFragmentReassembler × Option (List UInt8) :=
  r.push key f.offset f.more_fragments f.payload f.now

theorem config_push : (r.pushArrival key f).1.config = r.config := by
  have hrm : (r.makeRoom key f.now).config = r.config := config_makeRoom f.now
  unfold pushArrival push
  dsimp only
  split_ifs <;> first | exact hrm | rfl | skip
  split
  · exact hrm
  · split_ifs <;> exact hrm

/-- What one push does to the state of its key, and when it gives a datagram. -/
theorem Holds.push (h : r.Holds key l) (f : Arrival) :
    (r.pushArrival key f).1.Holds key (nextGroup r.config l f) ∧
      (f.IsFragment → ((r.pushArrival key f).2 = none ↔ ¬Completes r.config l f)) := by
  by_cases hfg : f.IsFragment
  swap
  · have hps : r.pushArrival key f = (r, some f.payload) := by
      unfold pushArrival IpFragmentReassembler.push
      rw [if_pos (not_not.mp hfg)]
    rw [hps, nextGroup, if_pos hfg]
    exact ⟨h, fun hf => absurd hf hfg⟩
  obtain ⟨hhl, hfr⟩ := h.makeRoom f
  have hcap : (r.makeRoom key f.now).config = r.config := config_makeRoom _
  rw [nextGroup, if_neg (not_not.mpr hfg)]
  unfold pushArrival IpFragmentReassembler.push
  rw [if_neg hfg]
  dsimp only
  have hend : min (f.offset + f.payload.length) (2^64 - 1) = f.end_ :=
    min_eq_left (Nat.le_sub_one_of_lt f.fits)
  obtain ⟨r1, hr1⟩ : ∃ r1, r1 = r.makeRoom key f.now := ⟨_, rfl⟩
  obtain ⟨d, hd⟩ : ∃ d, d = (r1.pending.lookup key).getD (.new f.now) := ⟨_, rfl⟩
  rw [← hr1] at hcap hhl hfr
  rw [← hd] at hhl hfr
  rw [← hr1, ← hd, hend, hcap, hhl.poisoned]
  by_cases hov : ∃ g ∈ kept (unexpired r.config l f), f.Meets g
  · -- an overlap
    have hrf : Refuses r.config (unexpired r.config l f) f := .inl hov
    rw [if_neg (by simp), if_pos ((hhl.overlaps f).mpr hov), if_pos (.inl hrf)]
    refine ⟨by simp [Holds], fun _ => iff_of_true rfl fun hc => hc.1 hrf⟩
  rw [if_neg (by simp), if_neg (mt (hhl.overlaps f).mp hov)]
  by_cases hov' : r.config.max_datagram_bytes < d.buffered + f.payload.length ∨
      r.config.max_datagram_bytes < f.end_
  · -- too much of a datagram
    have hrf : Refuses r.config (unexpired r.config l f) f := by
      rw [hhl.buffered] at hov'
      exact .inr hov'
    rw [if_pos hov', if_pos (.inl hrf)]
    refine ⟨by simp [Holds], fun _ => iff_of_true rfl fun hc => hc.1 hrf⟩
  have hrf : ¬Refuses r.config (unexpired r.config l f) f := by
    rw [hhl.buffered] at hov'
    exact fun hr => hr.elim hov hov'
  rw [if_neg hov']
  have hst := hhl.store hfr hov
  obtain ⟨d', hd'⟩ : ∃ d', d' = d.store f.offset f.more_fragments f.payload f.end_ := ⟨_, rfl⟩
  rw [← hd'] at hst ⊢
  have hcm : Completes r.config l f ↔
      ∃ total, d'.total_len = some total ∧ isContiguous d'.fragments total = true := by
    rw [Completes, and_iff_right hrf, hst.covers]
  have hwt : ({ r1 with pending := (r1.pending.insert key d).insert key d' } :
      IpFragmentReassembler).Holds key (unexpired r.config l f ++ [f]) := by
    simpa [Holds] using hst
  cases htt : d'.total_len with
  | none =>
    have hc : ¬Completes r.config l f := by
      rw [hcm, htt]
      rintro ⟨total, ⟨⟩, -⟩
    rw [if_neg (not_or.mpr ⟨hrf, hc⟩)]
    exact ⟨hwt, fun _ => iff_of_true rfl hc⟩
  | some total =>
    dsimp only
    by_cases hct : isContiguous d'.fragments total = true
    · have hc : Completes r.config l f := hcm.mpr ⟨total, htt, hct⟩
      rw [if_pos hct, if_pos (.inr hc)]
      refine ⟨by simp [Holds], fun _ => iff_of_false (by simp) (not_not.mpr hc)⟩
    · have hc : ¬Completes r.config l f := by
        rw [hcm, htt]
        rintro ⟨_, ⟨rfl⟩, hct'⟩
        exact hct hct'
      rw [if_neg hct, if_neg (not_or.mpr ⟨hrf, hc⟩)]
      exact ⟨hwt, fun _ => iff_of_true rfl hc⟩

/-! ## Runs of pushes for one key -/

/-- Push the arrivals in order, and give what came of each. -/
def pushAll (r : IpFragmentReassembler) (key : FragmentKey) :
    List Arrival → IpFragmentReassembler × List (Arrival × Option (List UInt8))
  | [] => (r, [])
  | f :: run =>
    let (r', out) := r.pushArrival key f
    let (r'', outs) := r'.pushAll key run
    (r'', (f, out) :: outs)

theorem Holds.pushAll (h : r.Holds key l) (run : List Arrival) :
    (r.pushAll key run).1.config = r.config ∧
      (r.pushAll key run).1.Holds key (run.foldl (nextGroup r.config) l) := by
  induction run generalizing r l with
  | nil => exact ⟨rfl, h⟩
  | cons f run ih =>
    obtain ⟨hcn, hhs⟩ := ih (h.push f).1
    rw [config_push] at hcn hhs
    exact ⟨hcn, hhs⟩

/-- The policy, on one run: once two fragments have overlapped, and no datagram has been completed,
no fragment completes one. -/
def NoDatagramAfterOverlap (r : IpFragmentReassembler) (key : FragmentKey) (run : List Arrival) :
    Prop :=
  ∀ before f after, run = before ++ f :: after → f.IsFragment →
    (∃ g h, [g, h].Sublist before ∧ g.IsFragment ∧ h.IsFragment ∧ g.Overlaps h) →
    (∀ e ∈ (r.pushAll key before).2, e.1.IsFragment → e.2 = none) →
    ((r.pushAll key before).1.pushArrival key f).2 = none

/-- The fragments among arrivals. -/
def fragmentsOf (run : List Arrival) : List Arrival := run.filter fun f => f.IsFragment

/-- Fragments that share no byte with each other, and of which the reassembler drops none: they have
bytes, stay within the cap, and they and the arrival of `f` are within the timeout of the first. -/
structure Intact (config : FragmentConfig) (l : List Arrival) (f : Arrival) : Prop where
  apart : l.Pairwise fun g h => ¬g.Overlaps h
  nonempty : ∀ g ∈ l, g.payload ≠ []
  bytes : (l.map fun g => g.payload.length).sum ≤ config.max_datagram_bytes
  ends : ∀ g ∈ l, g.end_ ≤ config.max_datagram_bytes
  times : ∀ g ∈ l.head?, ∀ h ∈ f :: l, h.now.saturatingSub g.now ≤ config.timeout

/-- No fragments that arrive one after the other cover a datagram. -/
def NoCover (l : List Arrival) : Prop := ∀ stretch, stretch <:+: l → ¬Covers stretch

variable {config : FragmentConfig}

/-- Fragments with bytes that share none do not meet in the code's test either. -/
theorem not_meets {g : Arrival} (hf : f.payload ≠ []) (hg : g.payload ≠ []) (h : ¬g.Overlaps f) :
    ¬f.Meets g := by
  rintro ⟨hlt, hlt'⟩
  have hpos := length_pos_of_ne_nil hf
  have hpos' := length_pos_of_ne_nil hg
  refine h ⟨max f.offset g.offset, ⟨le_max_right _ _, ?_⟩, le_max_left _ _, ?_⟩
  · unfold Arrival.end_ at hlt ⊢
    omega
  · unfold Arrival.end_ at hlt' ⊢
    omega

theorem mem_of_mem_kept (h : f ∈ kept l) : f ∈ l := by
  induction l with
  | nil => exact h
  | cons g l ih =>
    rw [kept] at h
    split_ifs at h
    · exact mem_cons_of_mem _ (ih h)
    · exact mem_cons.mpr ((mem_cons.mp h).imp_right ih)

/-- Of fragments with bytes that share none all are kept. -/
theorem kept_eq_self (h : l.Pairwise fun g h => ¬g.Overlaps h) (hne : ∀ g ∈ l, g.payload ≠ []) :
    kept l = l := by
  induction l with
  | nil => rfl
  | cons f l ih =>
    obtain ⟨hf, hl⟩ := pairwise_cons.mp h
    obtain ⟨hnf, hnl⟩ := forall_mem_cons.mp hne
    rw [kept, if_neg, ih hl hnl]
    rintro ⟨g, hg, hoff⟩
    have hpos := length_pos_of_ne_nil hnf
    have hpos' := length_pos_of_ne_nil (hnl g hg)
    exact hf g hg ⟨f.offset, ⟨le_rfl, Nat.lt_add_of_pos_right hpos⟩, hoff.le,
      hoff ▸ Nat.lt_add_of_pos_right hpos'⟩

theorem fragmentsOf_cons (h : f.IsFragment) (run : List Arrival) :
    fragmentsOf (f :: run) = f :: fragmentsOf run :=
  filter_cons_of_pos (by simpa using h)

theorem fragmentsOf_cons_of_not (h : ¬f.IsFragment) (run : List Arrival) :
    fragmentsOf (f :: run) = fragmentsOf run :=
  filter_cons_of_neg (by simpa using h)

theorem unexpired_suffix (config : FragmentConfig) (l : List Arrival) (f : Arrival) :
    unexpired config l f <:+ l := by
  unfold unexpired
  split_ifs
  · exact suffix_rfl
  · exact nil_suffix

/-- The group is a stretch of the fragments that arrived. -/
theorem foldl_nextGroup_suffix (config : FragmentConfig) (run l : List Arrival) :
    run.foldl (nextGroup config) l <:+ l ++ fragmentsOf run := by
  induction run generalizing l with
  | nil => rw [fragmentsOf, filter_nil, append_nil]; exact suffix_rfl
  | cons f run ih =>
    refine (ih (nextGroup config l f)).trans ?_
    rw [nextGroup]
    by_cases hf : f.IsFragment
    · rw [fragmentsOf_cons hf]
      split_ifs
      · exact ⟨l ++ [f], by simp⟩
      · obtain ⟨l', hl'⟩ := unexpired_suffix config l f
        exact ⟨l', by rw [← append_cons, ← append_assoc, hl']⟩
    · rw [if_pos hf, fragmentsOf_cons_of_not hf]

/-- Nothing makes the reassembler drop fragments that are intact. -/
theorem Intact.not_refuses {g : Arrival} {rest : List Arrival}
    (hin : Intact config (l ++ [f] ++ rest) g) :
    unexpired config l f = l ∧ ¬Refuses config l f := by
  have hfm : f ∈ l ++ [f] ++ rest := by simp
  have hlm : ∀ h ∈ l, h ∈ l ++ [f] ++ rest := by simp_all
  have hap := (pairwise_append.mp (pairwise_append.mp hin.apart).1).2.2
  refine ⟨if_pos fun h hh => hin.times h ?_ f (mem_cons_of_mem _ hfm), ?_⟩
  · rw [append_assoc, head?_append, hh]
    rfl
  · rintro (⟨h, hh, hmt⟩ | hlt | hlt)
    · have hl := mem_of_mem_kept hh
      exact not_meets (hin.nonempty f hfm) (hin.nonempty h (hlm h hl)) (hap h hl f mem_cons_self) hmt
    · have := hin.bytes
      simp only [map_append, sum_append, map_cons, sum_cons] at this
      omega
    · exact absurd (hin.ends f hfm) (not_le.mpr hlt)

/-- Fragments that nothing makes the reassembler drop are all in the group. -/
theorem foldl_nextGroup_eq {g : Arrival} {run : List Arrival} (h : r.Holds key l)
    (hin : Intact r.config (l ++ fragmentsOf run) g)
    (hnone : ∀ e ∈ (r.pushAll key run).2, e.1.IsFragment → e.2 = none) :
    run.foldl (nextGroup r.config) l = l ++ fragmentsOf run := by
  induction run generalizing r l with
  | nil => exact (append_nil l).symm
  | cons f run ih =>
    obtain ⟨hhs, hcm⟩ := h.push f
    obtain ⟨hout, hnone⟩ := forall_mem_cons.mp hnone
    have ih := ih hhs
    rw [config_push] at ih
    rw [foldl_cons]
    by_cases hf : f.IsFragment
    · rw [fragmentsOf_cons hf, append_cons] at hin ⊢
      obtain ⟨hun, hrf⟩ := hin.not_refuses
      have hnx : nextGroup r.config l f = l ++ [f] := by
        rw [nextGroup, if_neg (not_not.mpr hf), hun,
          if_neg (not_or.mpr ⟨hrf, (hcm hf).mp (hout hf)⟩)]
      rw [hnx] at ih ⊢
      exact ih hin hnone
    · have hnx : nextGroup r.config l f = l := by rw [nextGroup, if_pos hf]
      rw [fragmentsOf_cons_of_not hf] at hin ⊢
      rw [hnx] at ih ⊢
      exact ih hin hnone

/-- The outcomes of the first arrivals do not depend on the others. -/
theorem pushAll_append (run run' : List Arrival) :
    (r.pushAll key (run ++ run')).2 =
      (r.pushAll key run).2 ++ ((r.pushAll key run).1.pushAll key run').2 := by
  induction run generalizing r with
  | nil => rfl
  | cons f run ih => exact congrArg ((f, _) :: ·) ih

/-- Once two fragments have overlapped, no datagram is given out for their key, if none of the fragments
before the first overlap was dropped for another reason and no stretch of those after it covers a
datagram. -/
theorem no_datagram_after_overlap (hnew : key ∉ r.pending) {before after : List Arrival}
    (hf : f.IsFragment) (hoverlap : ∃ g ∈ fragmentsOf before, g.Overlaps f)
    (hintact : Intact r.config (fragmentsOf before) f) (hcover : NoCover (fragmentsOf after)) :
    r.NoDatagramAfterOverlap key (before ++ f :: after) := by
  rintro before' x after' hrun hx ⟨g, h, hsub, hg, hh, hov⟩ hnone
  have hhs : r.Holds key [] := by
    rw [Holds, AList.lookup_eq_none.mpr hnew]
  -- the two that overlap are not both before `f`
  have hlate : ¬before'.Sublist before := by
    intro hle
    have htwo : [g, h].Sublist (fragmentsOf before) := by
      have := (hsub.trans hle).filter fun f => f.IsFragment
      rwa [filter_cons_of_pos (by simpa using hg), filter_cons_of_pos (by simpa using hh)] at this
    exact (pairwise_cons.mp (hintact.apart.sublist htwo)).1 h mem_cons_self hov
  obtain ⟨mid, rfl, rfl⟩ : ∃ mid, before' = before ++ f :: mid ∧ after = mid ++ x :: after' := by
    rcases append_eq_append_iff.mp hrun with ⟨rest, hb, heq⟩ | ⟨rest, hb, heq⟩
    · cases rest with
      | nil => exact absurd (by rw [hb, append_nil]) hlate
      | cons y mid =>
        obtain ⟨rfl, hafter⟩ := cons_eq_cons.mp heq
        exact ⟨mid, hb, hafter⟩
    · exact absurd (hb ▸ sublist_append_left ..) hlate
  obtain ⟨hcn, hbf⟩ := hhs.pushAll (before ++ f :: mid)
  have hgroup : before.foldl (nextGroup r.config) [] = [] ++ fragmentsOf before :=
    foldl_nextGroup_eq hhs hintact fun e he =>
      hnone e (by rw [pushAll_append]; exact mem_append_left _ he)
  rw [foldl_append, hgroup, foldl_cons, nil_append] at hbf
  have hdrop : nextGroup r.config (fragmentsOf before) f = [] := by
    obtain ⟨g, hg, i, hgi, hfi⟩ := hoverlap
    have hun : unexpired r.config (fragmentsOf before) f = fragmentsOf before :=
      if_pos fun g hg => hintact.times g hg f mem_cons_self
    have hrf : Refuses r.config (fragmentsOf before) f := by
      refine .inl ⟨g, ?_, by omega, by omega⟩
      rwa [kept_eq_self hintact.apart hintact.nonempty]
    rw [nextGroup, if_neg (not_not.mpr hf), hun, if_pos (.inl hrf)]
  rw [hdrop] at hbf
  rw [(hbf.push x).2 hx]
  rintro ⟨-, hcv⟩
  refine hcover _ ?_ hcv
  rw [fragmentsOf, filter_append, ← fragmentsOf, ← fragmentsOf, fragmentsOf_cons hx]
  have hsuf := (unexpired_suffix (r.pushAll key (before ++ f :: mid)).1.config _ x).trans
    (foldl_nextGroup_suffix r.config mid [])
  obtain ⟨l', hl'⟩ := hsuf
  refine ⟨l', fragmentsOf after', ?_⟩
  rw [← append_assoc l', hl', append_assoc]
  rfl

def udpKey : FragmentKey := ⟨.v4 0x0a000001, .v4 0x0a000002, 17, 42⟩

/-- A datagram's first eight bytes. -/
def head (data : UInt8) : Arrival := ⟨0, true, List.replicate 8 data, .zero, by simp⟩

/-- Its last four. -/
def tail : Arrival := ⟨8, false, List.replicate 4 9, .zero, by simp⟩

/-- The head twice, with different bytes, and then the whole datagram. -/
def resent : List Arrival := [head 1, head 2, head 3, tail]

/-- Behind the two heads, the tail alone makes no datagram. -/
theorem no_datagram_after_overlap_tail :
    (withConfig .default).NoDatagramAfterOverlap udpKey [head 1, head 2, tail] := by
  have hlone : NoCover [tail] := by
    rintro stretch hst ⟨total, htotal, -, hcr⟩
    rcases sublist_singleton.mp hst.sublist with rfl | rfl
    · cases htotal
    · obtain ⟨f, hf, hle, -⟩ := hcr 0 (by cases htotal; decide)
      rw [mem_singleton.mp (mem_of_mem_kept hf)] at hle
      exact absurd hle (by decide)
  have hfirst : Intact .default [head 1] (head 2) :=
    ⟨pairwise_singleton _ _, by simp [head], by decide, by simp [head, Arrival.end_, FragmentConfig.default],
      by simp [head]⟩
  show (withConfig .default).NoDatagramAfterOverlap udpKey ([head 1] ++ head 2 :: [tail])
  exact no_datagram_after_overlap (AList.notMem_empty _) (by decide)
    ⟨head 1, mem_singleton.mpr rfl, 0, by decide⟩ hfirst hlone

/-- The two heads overlap, and the state that would remember it is dropped with them: what follows
is reassembled. -/
theorem datagram_after_overlap : ¬(withConfig .default).NoDatagramAfterOverlap udpKey resent := by
  intro h
  have hnn := h [head 1, head 2, head 3] tail [] rfl (by decide)
    ⟨head 1, head 2, by simp, by decide, by decide, 0, by decide⟩ (by decide +kernel)
  exact absurd hnn (by decide +kernel)

end IpFragmentReassembler

end Flowscope
