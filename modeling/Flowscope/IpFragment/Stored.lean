import Flowscope.IpFragment

/-!
# What a fragment does to those stored before it

What one push leads to for its key is `Outcome`: the state of the key is dropped, keeps the new
fragment, or becomes the datagram that is given out; the other keys only lose what makes room
(`push_outcome`). From it follows what every state satisfies that pushes lead to.

Fragments are stored by offset, so a fragment that has the offset of a stored one replaces it. The
test for overlaps stands in the way of that unless one of the two is empty: `head_lost` is a run in
which an empty fragment makes the reassembler forget eight bytes that it has counted. In runs where
no empty fragment meets another one, nothing stored is lost (`keeps_of_reachable`).
-/

namespace Flowscope

open OrdMap List Reassembly

/-- What becomes of the state `d` of a key, and what is given out, when `f` is pushed. -/
inductive Outcome (cap : ℕ) (d : Reassembly) (f : Arrival) :
    Option Reassembly → Option (List UInt8) → Prop
  | poisoned (h : d.poisoned = true) : Outcome cap d f (some d) none
  | dropped (h : d.overlaps f.offset f.end_ = true ∨ cap < d.buffered + f.payload.length ∨
      cap < f.end_) : Outcome cap d f none none
  | waits (hapart : d.overlaps f.offset f.end_ = false)
      (hfits : d.buffered + f.payload.length ≤ cap ∧ f.end_ ≤ cap) :
      Outcome cap d f (some (d.store f.offset f.more_fragments f.payload f.end_)) none
  | completes (hapart : d.overlaps f.offset f.end_ = false)
      (hfits : d.buffered + f.payload.length ≤ cap ∧ f.end_ ≤ cap) {total : ℕ}
      (hcontiguous : isContiguous (d.store f.offset f.more_fragments f.payload f.end_).fragments
        total = true) :
      Outcome cap d f none
        (some ((d.store f.offset f.more_fragments f.payload f.end_).fragments.entries.flatMap
          Prod.snd))

namespace IpFragmentReassembler

variable {r : IpFragmentReassembler} {key k : FragmentKey} {f : Arrival}

/-- The state that a push for `key` works on. -/
def entryFor (r : IpFragmentReassembler) (key : FragmentKey) (now : Timestamp) : Reassembly :=
  ((r.makeRoom key now).pending.lookup key).getD (.new now)

theorem pushArrival_of_not_fragment (h : ¬f.IsFragment) :
    r.pushArrival key f = (r, some f.payload) := by
  unfold pushArrival push
  rw [if_pos (not_not.mp h)]

/-- What a fragment leads to, for its key and for the others. -/
theorem push_outcome (r : IpFragmentReassembler) (key : FragmentKey) (h : f.IsFragment) :
    Outcome r.config.max_datagram_bytes (r.entryFor key f.now) f
        ((r.pushArrival key f).1.pending.lookup key) (r.pushArrival key f).2 ∧
      ∀ k, k ≠ key → (r.pushArrival key f).1.pending.lookup k =
        (r.makeRoom key f.now).pending.lookup k := by
  have hcap : (r.makeRoom key f.now).config = r.config := config_makeRoom _
  have hend : min (f.offset + f.payload.length) (2^64 - 1) = f.end_ :=
    min_eq_left (Nat.le_sub_one_of_lt f.fits)
  obtain ⟨r1, hr1⟩ : ∃ r1, r.makeRoom key f.now = r1 := ⟨_, rfl⟩
  obtain ⟨d, hd⟩ : ∃ d, r.entryFor key f.now = d := ⟨_, rfl⟩
  unfold pushArrival push
  rw [if_neg h]
  unfold entryFor at hd
  dsimp only
  rw [hr1] at hcap hd
  rw [entryFor, hr1, hend, hcap, hd]
  split_ifs with hpo hov hmc
  · refine ⟨?_, fun k hk => AList.lookup_insert_ne hk⟩
    simpa using Outcome.poisoned hpo
  · refine ⟨?_, fun k hk => ?_⟩
    · simpa using Outcome.dropped (.inl hov)
    · simp [AList.lookup_erase_ne hk, AList.lookup_insert_ne hk]
  · refine ⟨?_, fun k hk => ?_⟩
    · simpa using Outcome.dropped (.inr hmc)
    · simp [AList.lookup_erase_ne hk, AList.lookup_insert_ne hk]
  have hapart : d.overlaps f.offset f.end_ = false := by simpa using hov
  have hfits : d.buffered + f.payload.length ≤ r.config.max_datagram_bytes ∧
      f.end_ ≤ r.config.max_datagram_bytes := by
    constructor <;> by_contra hlt <;> exact hmc (by omega)
  cases htt : (d.store f.offset f.more_fragments f.payload f.end_).total_len with
  | none =>
    refine ⟨?_, fun k hk => by simp [AList.lookup_insert_ne hk]⟩
    simpa using Outcome.waits hapart hfits
  | some total =>
    dsimp only
    by_cases hct :
        isContiguous (d.store f.offset f.more_fragments f.payload f.end_).fragments total = true
    · rw [if_pos hct]
      refine ⟨?_, fun k hk => ?_⟩
      · simpa using Outcome.completes hapart hfits hct
      · simp [AList.lookup_erase_ne hk, AList.lookup_insert_ne hk]
    · rw [if_neg hct]
      refine ⟨?_, fun k hk => by simp [AList.lookup_insert_ne hk]⟩
      simpa using Outcome.waits hapart hfits

variable {now : Timestamp} {d : Reassembly}

/-- Making room only ever drops. -/
theorem lookup_of_lookup_makeRoom
    (h : (r.makeRoom key now).pending.lookup k = some d) : r.pending.lookup k = some d := by
  have het : (r.evictExpired now).pending.lookup k = some d := by
    unfold makeRoom at h
    dsimp only at h
    split_ifs at h
    · unfold dropOldest at h
      split at h
      · exact h
      · rw [Table.lookup_erase_eq] at h
        split_ifs at h
        exact h
    · exact h
  rw [lookup_evictExpired, Option.filter_eq_some_iff] at het
  exact het.1

/-- The state that a push works on is the one that is kept for its key, or a new one. -/
theorem entryFor_cases (r : IpFragmentReassembler) (key : FragmentKey) (now : Timestamp) :
    r.pending.lookup key = some (r.entryFor key now) ∨ r.entryFor key now = .new now := by
  unfold entryFor
  cases hd : (r.makeRoom key now).pending.lookup key with
  | none => exact .inr rfl
  | some d => exact .inl (lookup_of_lookup_makeRoom hd)

theorem entryFor_of_lookup (h : r.pending.lookup key = some d)
    (htm : now.saturatingSub d.first_seen ≤ r.config.timeout) : r.entryFor key now = d := by
  unfold entryFor
  rw [lookup_makeRoom, h, Option.filter_some, decide_eq_true htm]
  rfl

end IpFragmentReassembler

/-! ## The bytes of a datagram that are stored -/

/-- Byte `i` of the datagram is stored, and is `b`. -/
def Reassembly.Stores (d : Reassembly) (i : ℕ) (b : UInt8) : Prop :=
  ∃ e ∈ d.fragments, e.1 ≤ i ∧ e.2[i - e.1]? = some b

/-- A fragment shares a byte of the datagram with a stored one. -/
def Reassembly.Shares (d : Reassembly) (f : Arrival) : Prop :=
  ∃ e ∈ d.fragments, ∃ i, (f.offset ≤ i ∧ i < f.end_) ∧ e.1 ≤ i ∧ i < e.1 + e.2.length

/-- No empty fragment lies within another one: neither `f` in a stored one, nor a stored one
in `f`. -/
def Reassembly.Clear (d : Reassembly) (f : Arrival) : Prop :=
  ∀ e ∈ d.fragments, (f.payload = [] → ¬(e.1 ≤ f.offset ∧ f.offset < e.1 + e.2.length)) ∧
    (e.2 = [] → ¬(f.offset < e.1 ∧ e.1 < f.end_))

/-- The count of bytes is right and within the cap, and no two fragments share a byte. -/
structure Reassembly.Sound (cap : ℕ) (d : Reassembly) : Prop where
  buffered_eq : d.buffered = d.fragments.total List.length
  buffered_le : d.buffered ≤ cap
  apart : ∀ e ∈ d.fragments, ∀ e' ∈ d.fragments, e.1 < e'.1 → e.1 + e.2.length ≤ e'.1

namespace Reassembly

variable {d : Reassembly} {f : Arrival} {cap : ℕ}

theorem sound_new (now : Timestamp) : (new now).Sound cap where
  buffered_eq := rfl
  buffered_le := Nat.zero_le _
  apart e he := absurd he (not_mem_empty e)

theorem overlaps_eq_false :
    d.overlaps f.offset f.end_ = false ↔
      ∀ e ∈ d.fragments, ¬(f.offset < e.1 + e.2.length ∧ e.1 < f.end_) := by
  simp only [overlaps, any_eq_false, decide_eq_true_eq]
  rfl

/-- Where no empty fragment lies within another, the code's test is that a byte is shared. -/
theorem overlaps_of_clear (hcl : d.Clear f) (h : ¬d.Shares f) :
    d.overlaps f.offset f.end_ = false := by
  rw [overlaps_eq_false]
  rintro e he ⟨hlt, hlt'⟩
  obtain ⟨hnew, hold⟩ := hcl e he
  have hend : f.end_ = f.offset + f.payload.length := rfl
  by_cases hf : f.payload = []
  · have hlen : f.payload.length = 0 := by rw [hf, length_nil]
    exact hnew hf ⟨by omega, hlt⟩
  · have hpos : 0 < f.payload.length := length_pos_of_ne_nil hf
    rcases lt_or_ge f.offset e.1 with hbf | haf
    · -- `f` starts first, and reaches the stored one's first byte if it has one
      by_cases hem : e.2 = []
      · exact hold hem ⟨hbf, hlt'⟩
      · have := length_pos_of_ne_nil hem
        exact h ⟨e, he, e.1, ⟨hbf.le, hlt'⟩, le_rfl, by omega⟩
    · exact h ⟨e, he, f.offset, ⟨le_rfl, by omega⟩, haf, hlt⟩

variable {e : ℕ × List UInt8} {b : UInt8}

/-- A stored fragment at the offset of `f` is empty. -/
theorem eq_nil_of_offset_eq (hcl : d.Clear f) (hapart : d.overlaps f.offset f.end_ = false)
    (he : e ∈ d.fragments) (hoff : e.1 = f.offset) : e.2 = [] := by
  by_contra hne
  have hpos := length_pos_of_ne_nil hne
  have hno := overlaps_eq_false.mp hapart e he
  have hend : f.end_ = f.offset + f.payload.length := rfl
  by_cases hf : f.payload = []
  · exact (hcl e he).1 hf ⟨by omega, by omega⟩
  · have := length_pos_of_ne_nil hf
    exact hno ⟨by omega, by omega⟩

/-- Taking in a fragment that does not lie on another keeps the rest as it is. -/
theorem Sound.store (h : d.Sound cap) (hcl : d.Clear f)
    (hapart : d.overlaps f.offset f.end_ = false) (hfits : d.buffered + f.payload.length ≤ cap) :
    (d.store f.offset f.more_fragments f.payload f.end_).Sound cap where
  buffered_eq := by
    have hrs : (d.fragments.erase f.offset).total length = d.fragments.total length := by
      cases hold : d.fragments.get? f.offset with
      | none => rw [erase_of_not_mem (get?_eq_none.mp hold)]
      | some data =>
        have hmem := get?_eq_some.mp hold
        have hnil : data = [] := eq_nil_of_offset_eq hcl hapart hmem rfl
        rw [total_erase hmem, hnil, length_nil, Nat.zero_add]
    calc
      d.buffered + f.payload.length = f.payload.length + d.fragments.total length := by
        rw [h.buffered_eq, Nat.add_comm]
      _ = (d.fragments.insert f.offset f.payload).total length := by
        rw [total_insert, hrs]
  buffered_le := hfits
  apart e he e' he' hlt := by
    have hno := overlaps_eq_false.mp hapart
    have hend : f.end_ = f.offset + f.payload.length := rfl
    rcases mem_insert.mp he with rfl | ⟨hold, -⟩
    · rcases mem_insert.mp he' with rfl | ⟨hol', -⟩
      · exact absurd hlt (lt_irrefl _)
      · have := hno e' hol'
        simp only at hlt ⊢
        omega
    · rcases mem_insert.mp he' with rfl | ⟨hol', -⟩
      · have := hno e hold
        omega
      · exact h.apart e hold e' hol' hlt

theorem Stores.store (hcl : d.Clear f) (hapart : d.overlaps f.offset f.end_ = false) {i : ℕ}
    (h : d.Stores i b) :
    (d.store f.offset f.more_fragments f.payload f.end_).Stores i b := by
  obtain ⟨e, he, hle, hb⟩ := h
  refine ⟨e, mem_insert.mpr (.inr ⟨he, fun hoff => ?_⟩), hle, hb⟩
  rw [eq_nil_of_offset_eq hcl hapart he hoff] at hb
  simp at hb

/-- A walk that meets no hole puts every byte at its place. -/
theorem getElem?_of_contiguousFrom {x total i : ℕ} {l : List (ℕ × List UInt8)}
    (h : contiguousFrom x l = some total) (he : e ∈ l) (hle : e.1 ≤ i)
    (hb : e.2[i - e.1]? = some b) : x ≤ e.1 ∧ (l.flatMap Prod.snd)[i - x]? = some b := by
  induction l generalizing x with
  | nil => cases he
  | cons a l ih =>
    obtain ⟨o, data⟩ := a
    simp only [contiguousFrom] at h
    split_ifs at h with ho
    subst ho
    rw [flatMap_cons]
    rcases mem_cons.mp he with rfl | he
    · refine ⟨le_rfl, ?_⟩
      rw [List.getElem?_append_left (List.getElem?_eq_some_iff.mp hb).1]
      exact hb
    · obtain ⟨hxe, hrs⟩ := ih h he
      refine ⟨by omega, ?_⟩
      rw [getElem?_append_right (by simp only; omega)]
      rwa [show i - o - data.length = i - (o + data.length) by omega]

end Reassembly

/-! ## Runs -/

namespace IpFragmentReassembler

/-- The states that calls lead to, when every push meets `ok` in the state in which it is made. -/
inductive Reachable (ok : IpFragmentReassembler → FragmentKey → Arrival → Prop)
    (config : FragmentConfig) : IpFragmentReassembler → Prop
  | withConfig : Reachable ok config (.withConfig config)
  | push {r : IpFragmentReassembler} (h : Reachable ok config r) (key : FragmentKey) (f : Arrival)
      (hf : ok r key f) : Reachable ok config (r.pushArrival key f).1
  | evictExpired {r : IpFragmentReassembler} (h : Reachable ok config r) (now : Timestamp) :
      Reachable ok config (r.evictExpired now)

/-- Any push. -/
def Any (_ : IpFragmentReassembler) (_ : FragmentKey) (_ : Arrival) : Prop := True

/-- A push after which no empty fragment lies within another one of its datagram. -/
def ClearFor (r : IpFragmentReassembler) (key : FragmentKey) (f : Arrival) : Prop :=
  f.IsFragment → ∀ d, r.pending.lookup key = some d → d.Clear f

/-- After the push of `f`, the bytes stored in `d` are stored still, or the datagram that is given
out has them at their place. -/
def Retains (r : IpFragmentReassembler) (key : FragmentKey) (d : Reassembly) (f : Arrival) : Prop :=
  (∃ d', (r.pushArrival key f).1.pending.lookup key = some d' ∧
      ∀ i b, d.Stores i b → d'.Stores i b) ∨
    ∃ datagram, (r.pushArrival key f).2 = some datagram ∧
      ∀ i b, d.Stores i b → datagram[i]? = some b

/-- The datagrams of a state are sound, and no fragment that meets `ok` destroys another: if it
shares no byte with a stored one, and its datagram has not timed out and stays within the cap, then
what was stored is retained. -/
structure Keeps (ok : IpFragmentReassembler → FragmentKey → Arrival → Prop)
    (r : IpFragmentReassembler) : Prop where
  sound : ∀ key d, r.pending.lookup key = some d → d.Sound r.config.max_datagram_bytes
  retains : ∀ key d f, r.pending.lookup key = some d → ok r key f →
    f.now.saturatingSub d.first_seen ≤ r.config.timeout → ¬d.Shares f →
    d.buffered + f.payload.length ≤ r.config.max_datagram_bytes →
    f.end_ ≤ r.config.max_datagram_bytes → r.Retains key d f

variable {r : IpFragmentReassembler} {key : FragmentKey} {f : Arrival} {d : Reassembly}

section

variable (h : ∀ key d, r.pending.lookup key = some d → d.Sound r.config.max_datagram_bytes)
include h

/-- The state that a push works on is as sound, and as clear, as the one kept for its key. -/
theorem sound_entryFor (hcl : ∀ d, r.pending.lookup key = some d → d.Clear f) :
    (r.entryFor key f.now).Sound r.config.max_datagram_bytes ∧ (r.entryFor key f.now).Clear f := by
  rcases r.entryFor_cases key f.now with hd | hd
  · exact ⟨h key _ hd, hcl _ hd⟩
  · rw [hd]
    exact ⟨sound_new _, fun e he => absurd he (not_mem_empty e)⟩

theorem sound_push (hcl : r.ClearFor key f) {k : FragmentKey} {d' : Reassembly}
    (hd' : (r.pushArrival key f).1.pending.lookup k = some d') :
    d'.Sound r.config.max_datagram_bytes := by
  by_cases hf : f.IsFragment
  swap
  · rw [pushArrival_of_not_fragment hf] at hd'
    exact h k d' hd'
  obtain ⟨hsd, hcl⟩ := sound_entryFor h (hcl hf)
  obtain ⟨hkey, hor⟩ := r.push_outcome key hf
  by_cases hk : k = key
  · rw [hk] at hd'
    rw [hd'] at hkey
    generalize (r.pushArrival key f).2 = out at hkey
    cases hkey with
    | poisoned => exact hsd
    | waits hapart hfits => exact hsd.store hcl hapart hfits.1
  · rw [hor k hk] at hd'
    exact h k d' (lookup_of_lookup_makeRoom hd')

end

theorem retains_push (hd : r.pending.lookup key = some d) (hcl : r.ClearFor key f)
    (htm : f.now.saturatingSub d.first_seen ≤ r.config.timeout) (hsh : ¬d.Shares f)
    (hbd : d.buffered + f.payload.length ≤ r.config.max_datagram_bytes)
    (hend : f.end_ ≤ r.config.max_datagram_bytes) : r.Retains key d f := by
  by_cases hf : f.IsFragment
  swap
  · unfold Retains
    rw [pushArrival_of_not_fragment hf]
    exact .inl ⟨d, hd, fun i b h => h⟩
  have hcl := hcl hf d hd
  have hapart := overlaps_of_clear hcl hsh
  obtain ⟨hkey, -⟩ := r.push_outcome key hf
  rw [entryFor_of_lookup hd htm] at hkey
  unfold Retains
  generalize (r.pushArrival key f).1.pending.lookup key = d?, (r.pushArrival key f).2 = out at hkey ⊢
  cases hkey with
  | poisoned => exact .inl ⟨d, rfl, fun i b h => h⟩
  | dropped h =>
    rw [hapart] at h
    rcases h with h | h | h
    · cases h
    · omega
    · omega
  | waits => exact .inl ⟨_, rfl, fun i b h => h.store hcl hapart⟩
  | completes _ _ hcontiguous =>
    refine .inr ⟨_, rfl, fun i b h => ?_⟩
    obtain ⟨e, he, hle, hb⟩ := h.store hcl hapart
    have hwl := of_decide_eq_true hcontiguous
    simpa using (getElem?_of_contiguousFrom hwl he hle hb).2

/-- In every run of pushes that leave no empty fragment within another one, the reassembler counts
and keeps apart what it stores, and loses nothing of it. -/
theorem keeps_of_reachable {config : FragmentConfig} (h : Reachable ClearFor config r) :
    r.Keeps ClearFor := by
  refine ⟨?_, fun key d f hd hcl htm => retains_push hd hcl htm⟩
  induction h with
  | withConfig =>
    intro key d hd
    exact absurd hd (by simp [withConfig])
  | push h key f hf ih =>
    intro k d hd
    rw [config_push]
    exact sound_push ih hf hd
  | evictExpired h now ih =>
    intro k d hd
    rw [lookup_evictExpired, Option.filter_eq_some_iff] at hd
    exact ih k d hd.1

/-- An empty fragment at the start of a datagram. -/
def empty : Arrival := ⟨0, true, [], .zero, by simp⟩

/-- The state of the datagram whose first eight bytes have arrived. -/
def headOnly : Reassembly := (Reassembly.new .zero).store 0 true (List.replicate 8 1) 8

/-- An empty fragment at the end of the first eight bytes. -/
def atEnd : Arrival := ⟨8, true, [], .zero, by simp⟩

/-- Eight bytes are stored, and an empty fragment at their end: neither is lost to the next push. -/
theorem keeps_of_reachable_atEnd :
    let r := (((withConfig .default).pushArrival udpKey (head 1)).1.pushArrival udpKey atEnd).1
    r.pending.lookup udpKey = some (headOnly.store 8 true [] 8) ∧ r.Keeps ClearFor := by
  have hhead : ((withConfig .default).pushArrival udpKey (head 1)).1.pending.lookup udpKey =
      some headOnly := rfl
  refine ⟨rfl, keeps_of_reachable (.push (.push .withConfig udpKey (head 1) ?_) udpKey atEnd ?_)⟩
  · exact fun _ d hd => absurd hd (by simp [withConfig])
  · intro _ d hd e he
    obtain rfl := Option.some.inj (hhead.symm.trans hd)
    rcases mem_insert.mp he with rfl | ⟨he, -⟩
    · exact ⟨fun _ h => absurd h.2 (by decide), fun h => absurd h (by decide)⟩
    · exact absurd he (not_mem_empty e)

/-- The empty fragment shares no byte with the eight that are stored, and replaces them. -/
theorem head_lost : ¬∀ config r, Reachable Any config r → r.Keeps Any := by
  intro h
  have hkp := h .default _ (.push .withConfig udpKey (head 1) trivial)
  have hsh : ¬headOnly.Shares empty := by
    rintro ⟨e, he, i, ⟨hlo, hhi⟩, -⟩
    exact absurd hhi (by simp [empty, Arrival.end_])
  have hst : headOnly.Stores 0 1 :=
    ⟨(0, replicate 8 1), mem_insert.mpr (.inl rfl), le_rfl, rfl⟩
  rcases hkp.retains udpKey headOnly empty rfl trivial (by decide) hsh (by decide)
    (by decide) with ⟨d', hd', hkt⟩ | ⟨datagram, hout, -⟩
  · obtain rfl : headOnly.store 0 true [] 0 = d' := Option.some.inj hd'
    obtain ⟨e, he, -, hb⟩ := hkt 0 1 hst
    have he : e = (0, []) := by
      rcases mem_insert.mp he with he | ⟨he, hne⟩
      · exact he
      · rcases mem_insert.mp he with rfl | ⟨he, -⟩
        · exact absurd rfl hne
        · exact absurd he (not_mem_empty e)
    subst he
    simp at hb
  · cases hout

end IpFragmentReassembler

end Flowscope
