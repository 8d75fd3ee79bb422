import Flowscope.IpFragment.Stored

/-!
# Fragments in any order

A datagram cut into two or more parts (`fragmentsFrom`) is put together again whatever the order in
which its fragments are pushed, and whatever is pushed for other keys in between: every push but the
last gives nothing, and the last one gives the datagram (`reassembles_in_any_order`).

The group of the key (`Holds`) is a part of the fragments all along. A part of them is apart from
every fragment that is still to come, stays within the cap, and covers the datagram only if nothing
is to come (`covers_iff`), so that no push is refused and only the last one completes.
-/

namespace Flowscope

open List Arrival

/-- A fragment, without the time of its arrival. -/
structure Fragment where
  offset : ℕ
  more_fragments : Bool
  payload : List UInt8
deriving DecidableEq, Repr

/-- The offset past its last byte. -/
def Fragment.end_ (p : Fragment) : ℕ := p.offset + p.payload.length

def Arrival.fragment (f : Arrival) : Fragment := ⟨f.offset, f.more_fragments, f.payload⟩

/-- The fragments of a datagram that is cut into parts, the first of them at `offset`. All but the
last say that more follow. -/
def fragmentsFrom (offset : ℕ) : List (List UInt8) → List Fragment
  | [] => []
  | part :: parts => ⟨offset, parts ≠ [], part⟩ :: fragmentsFrom (offset + part.length) parts

/-- Two fragments, one of which ends before the other starts. -/
def Fragment.Apart (p q : Fragment) : Prop := p.end_ ≤ q.offset ∨ q.end_ ≤ p.offset

/-! ## The fragments of a datagram -/

section Cut

variable {offset : ℕ} {parts : List (List UInt8)} {p : Fragment}

theorem fragmentsFrom_bounds (h : p ∈ fragmentsFrom offset parts) :
    p.payload ∈ parts ∧ offset ≤ p.offset ∧ p.end_ ≤ offset + parts.flatten.length ∧
      (p.more_fragments = false → p.end_ = offset + parts.flatten.length) := by
  induction parts generalizing offset with
  | nil => cases h
  | cons part parts ih =>
    rw [flatten_cons, length_append]
    rcases mem_cons.mp h with rfl | h
    · refine ⟨mem_cons_self, le_rfl, ?_, fun hls => ?_⟩
      · unfold Fragment.end_
        dsimp only
        omega
      · have hnil : parts = [] := by simpa using hls
        simp [Fragment.end_, hnil]
    · obtain ⟨hmem, hle, hend, hls⟩ := ih h
      exact ⟨mem_cons_of_mem _ hmem, by omega, by omega, fun hm => by have := hls hm; omega⟩

section

variable (offset : ℕ) (parts : List (List UInt8))

theorem pairwise_fragmentsFrom :
    (fragmentsFrom offset parts).Pairwise fun p q => p.end_ ≤ q.offset := by
  induction parts generalizing offset with
  | nil => exact .nil
  | cons part parts ih =>
    refine pairwise_cons.mpr ⟨fun q hq => ?_, ih _⟩
    exact (fragmentsFrom_bounds hq).2.1

theorem sum_fragmentsFrom :
    ((fragmentsFrom offset parts).map fun p => p.payload.length).sum = parts.flatten.length := by
  induction parts generalizing offset with
  | nil => rfl
  | cons part parts ih => simp [fragmentsFrom, ih]

theorem flatMap_fragmentsFrom :
    (fragmentsFrom offset parts).flatMap Fragment.payload = parts.flatten := by
  induction parts generalizing offset with
  | nil => rfl
  | cons part parts ih => simp [fragmentsFrom, ih]

theorem length_fragmentsFrom : (fragmentsFrom offset parts).length = parts.length := by
  induction parts generalizing offset with
  | nil => rfl
  | cons part parts ih => simp [fragmentsFrom, ih]

end

/-- Every byte of the datagram is in a fragment. -/
theorem exists_fragmentsFrom {i : ℕ} (hle : offset ≤ i) (hlt : i < offset + parts.flatten.length) :
    ∃ p ∈ fragmentsFrom offset parts, p.offset ≤ i ∧ i < p.end_ := by
  induction parts generalizing offset with
  | nil => simp at hlt; omega
  | cons part parts ih =>
    rw [flatten_cons, length_append] at hlt
    by_cases hin : i < offset + part.length
    · exact ⟨_, mem_cons_self, hle, hin⟩
    · obtain ⟨p, hp, hin⟩ := ih (show offset + part.length ≤ i by omega) (by omega)
      exact ⟨p, mem_cons_of_mem _ hp, hin⟩

theorem exists_last_fragmentsFrom (offset : ℕ) (h : parts ≠ []) :
    ∃ p ∈ fragmentsFrom offset parts, p.more_fragments = false := by
  induction parts generalizing offset with
  | nil => exact absurd rfl h
  | cons part parts ih =>
    by_cases hnil : parts = []
    · exact ⟨_, mem_cons_self, by simp [hnil]⟩
    · obtain ⟨p, hp, hls⟩ := ih (offset + part.length) hnil
      exact ⟨p, mem_cons_of_mem _ hp, hls⟩

/-- None of two or more parts is a whole datagram. -/
theorem isFragment_of_mem (hparts : ∀ part ∈ parts, part ≠ []) (htwo : 2 ≤ parts.length)
    {f : Arrival} (h : f.fragment ∈ fragmentsFrom 0 parts) : f.IsFragment := by
  rintro ⟨hof, hls⟩
  obtain ⟨first, second, rest, rfl⟩ : ∃ first second rest, parts = first :: second :: rest := by
    match parts, htwo with
    | first :: second :: rest, _ => exact ⟨first, second, rest, rfl⟩
  rcases mem_cons.mp h with heq | h
  · have hmr : f.more_fragments = true := by
      simpa [fragment] using congrArg Fragment.more_fragments heq
    rw [hls] at hmr
    cases hmr
  · have hfm : 0 + first.length ≤ f.offset := (fragmentsFrom_bounds h).2.1
    have hpos : 0 < first.length := length_pos_of_ne_nil (hparts first mem_cons_self)
    omega

end Cut

/-! ## A part of the fragments -/

/-- The arrivals are the fragments of the datagram, each once, in any order. -/
def Cut (parts : List (List UInt8)) (l : List Arrival) : Prop :=
  (l.map Arrival.fragment).Perm (fragmentsFrom 0 parts)

variable {l : List Arrival}

theorem mem_of_mem_kept {f : Arrival} (h : f ∈ kept l) : f ∈ l := by
  induction l with
  | nil => exact h
  | cons g l ih =>
    unfold kept at h
    split_ifs at h
    · exact mem_cons_of_mem _ (ih h)
    · rcases mem_cons.mp h with rfl | h
      · exact mem_cons_self
      · exact mem_cons_of_mem _ (ih h)

theorem mem_of_lastEnd {total : ℕ} (h : lastEnd l = some total) :
    ∃ f ∈ l, f.more_fragments = false ∧ f.end_ = total := by
  obtain ⟨f, hf, rfl⟩ := Option.map_eq_some_iff.mp h
  have hmem := mem_filter.mp (mem_of_getLast? hf)
  exact ⟨f, hmem.1, by simpa using hmem.2, rfl⟩

theorem exists_lastEnd {f : Arrival} (hf : f ∈ l)
    (hls : f.more_fragments = false) : ∃ total, lastEnd l = some total := by
  have hmem : f ∈ l.filter fun f => f.more_fragments = false :=
    mem_filter.mpr ⟨hf, by simpa using hls⟩
  have hls := getLast?_eq_some_getLast (ne_nil_of_mem hmem)
  exact ⟨_, by rw [lastEnd, hls, Option.map_some]⟩

section Part

variable {parts : List (List UInt8)} {l : List Arrival} {f g : Arrival}

section

variable (h : Cut parts l)
include h

theorem Cut.mem (hf : f ∈ l) : f.fragment ∈ fragmentsFrom 0 parts :=
  h.subset (mem_map_of_mem hf)

theorem Cut.end_le (hf : f ∈ l) : f.end_ ≤ parts.flatten.length := by
  have := (fragmentsFrom_bounds (h.mem hf)).2.2.1
  rwa [Nat.zero_add] at this

theorem Cut.end_eq (hf : f ∈ l) (hls : f.more_fragments = false) :
    f.end_ = parts.flatten.length := by
  have := (fragmentsFrom_bounds (h.mem hf)).2.2.2 hls
  rwa [Nat.zero_add] at this

theorem Cut.pos (hparts : ∀ part ∈ parts, part ≠ []) (hf : f ∈ l) : 0 < f.payload.length :=
  length_pos_of_ne_nil (hparts _ (fragmentsFrom_bounds (h.mem hf)).1)

theorem Cut.apart : l.Pairwise fun f g => f.fragment.Apart g.fragment := by
  have hsy : ∀ {p q : Fragment}, p.Apart q → q.Apart p := fun hpq => hpq.symm
  have hfs : (fragmentsFrom 0 parts).Pairwise Fragment.Apart :=
    (pairwise_fragmentsFrom 0 parts).imp fun hpq => .inl hpq
  exact pairwise_map.mp ((h.pairwise_iff hsy).mpr hfs)

/-- No two fragments have one offset, so all are kept. -/
theorem Cut.kept_eq (hparts : ∀ part ∈ parts, part ≠ []) : kept l = l := by
  have hpos : ∀ f ∈ l, 0 < f.payload.length := fun f hf => h.pos hparts hf
  have hap := h.apart
  clear h
  induction l with
  | nil => rfl
  | cons f l ih =>
    obtain ⟨hfr, hrs⟩ := pairwise_cons.mp hap
    rw [kept, if_neg, ih (fun g hg => hpos g (mem_cons_of_mem _ hg)) hrs]
    rintro ⟨g, hg, hoff⟩
    have hf := hpos f mem_cons_self
    have hg' := hpos g (mem_cons_of_mem _ hg)
    have := hfr g hg
    simp only [Fragment.Apart, Fragment.end_, fragment] at this
    omega

end

variable {rest : List Arrival}

section

variable (h : Cut parts (l ++ f :: rest))
include h

/-- A fragment that is still to come is apart from those that have arrived. -/
theorem Cut.not_meets (hg : g ∈ l) : ¬f.Meets g := by
  have hap := (pairwise_append.mp h.apart).2.2 g hg f mem_cons_self
  rintro ⟨hlt, hlt'⟩
  rcases hap with hle | hle
  · exact absurd hlt (not_lt.mpr hle)
  · exact absurd hlt' (not_lt.mpr hle)

theorem Cut.sum_le :
    (l.map fun g => g.payload.length).sum + f.payload.length ≤ parts.flatten.length := by
  have hsum := (h.map fun p => p.payload.length).sum_eq
  rw [sum_fragmentsFrom, map_map] at hsum
  rw [← hsum, map_append, sum_append, map_cons, sum_cons]
  have heq : (l.map ((fun p : Fragment => p.payload.length) ∘ fragment)) =
      l.map fun g => g.payload.length := rfl
  have hf : ((fun p : Fragment => p.payload.length) ∘ fragment) f = f.payload.length := rfl
  rw [heq]
  omega

theorem Cut.not_refuses {config : FragmentConfig}
    (hcap : parts.flatten.length ≤ config.max_datagram_bytes) : ¬Refuses config l f := by
  rintro (⟨g, hg, hmt⟩ | hmc | hfar)
  · exact h.not_meets (mem_of_mem_kept hg) hmt
  · have := h.sum_le
    omega
  · have := h.end_le (f := f) (by simp)
    omega

/-- What has arrived covers the datagram just if nothing is to come. -/
theorem Cut.covers_iff (hparts : ∀ part ∈ parts, part ≠ [])
    (hne : parts ≠ []) : Covers (l ++ [f]) ↔ rest = [] := by
  have hall : l ++ f :: rest = (l ++ [f]) ++ rest := by simp
  rw [hall] at h
  constructor
  · rintro ⟨total, hls, -, hcr⟩
    by_contra hrs
    obtain ⟨g, hg⟩ := exists_mem_of_ne_nil rest hrs
    obtain ⟨last, hmem, hmr, rfl⟩ := mem_of_lastEnd hls
    rw [h.end_eq (mem_append_left _ hmem) hmr] at hcr
    have hgp := h.pos hparts (mem_append_right _ hg)
    have hgn := h.end_le (mem_append_right _ hg)
    unfold end_ at hgn
    -- the first byte of the missing fragment is in none that has arrived
    obtain ⟨f', hf', hle, hlt⟩ := hcr g.offset (by omega)
    have hap := (pairwise_append.mp h.apart).2.2 f' (mem_of_mem_kept hf') g hg
    rcases hap with hend | hend
    · exact absurd hlt (not_lt.mpr hend)
    · simp only [Fragment.end_, fragment] at hend
      omega
  · rintro rfl
    rw [append_nil] at h
    obtain ⟨p, hp, hpm⟩ := exists_last_fragmentsFrom 0 hne
    obtain ⟨last, hls, rfl⟩ := mem_map.mp (h.symm.subset hp)
    obtain ⟨total, htt⟩ := exists_lastEnd hls hpm
    obtain ⟨last', hls', hmr, rfl⟩ := mem_of_lastEnd htt
    refine ⟨_, htt, ?_, ?_⟩
    · intro f' hf'
      rw [h.end_eq hls' hmr]
      exact h.end_le (mem_of_mem_kept hf')
    · intro i hi
      rw [h.end_eq hls' hmr] at hi
      obtain ⟨p, hp, hin⟩ := exists_fragmentsFrom (Nat.zero_le i) (by rwa [Nat.zero_add])
      obtain ⟨f', hf', rfl⟩ := mem_map.mp (h.symm.subset hp)
      rw [h.kept_eq hparts]
      exact ⟨f', hf', hin⟩

end

/-- With all fragments held, what is stored is the datagram. -/
theorem Cut.flatMap_eq {d : Reassembly} (h : Cut parts l) (hparts : ∀ part ∈ parts, part ≠ [])
    (hhl : Held l d) : d.fragments.entries.flatMap Prod.snd = parts.flatten := by
  obtain ⟨cut, hcut⟩ : ∃ cut, (fragmentsFrom 0 parts).map (fun p => (p.offset, p.payload)) = cut :=
    ⟨_, rfl⟩
  have hsr : cut.Pairwise fun a b => a.1 < b.1 := by
    rw [← hcut, pairwise_map]
    refine (pairwise_fragmentsFrom 0 parts).imp_of_mem fun {p q} hp _ hle => ?_
    have := length_pos_of_ne_nil (hparts _ (fragmentsFrom_bounds hp).1)
    unfold Fragment.end_ at hle
    omega
  have hmem : ∀ e, e ∈ d.fragments.entries ↔ e ∈ cut := by
    intro e
    rw [← hcut, ← OrdMap.mem_def, hhl.mem, h.kept_eq hparts, mem_map]
    constructor
    · rintro ⟨f, hf, rfl⟩
      exact ⟨_, h.mem hf, rfl⟩
    · rintro ⟨p, hp, rfl⟩
      obtain ⟨f, hf, rfl⟩ := mem_map.mp (h.symm.subset hp)
      exact ⟨f, hf, rfl⟩
  rw [OrdMap.eq_of_sorted d.fragments.sorted hsr hmem, ← hcut, flatMap_map]
  exact flatMap_fragmentsFrom 0 parts

end Part

/-! ## Runs of pushes for any keys -/

def ofKey {α : Type} (key : FragmentKey) (l : List (FragmentKey × α)) : List α :=
  (l.filter fun e => e.1 = key).map Prod.snd

section OfKey

variable {α : Type} {key k : FragmentKey} {l : List (FragmentKey × α)} {a : α}

theorem ofKey_cons_self : ofKey key ((key, a) :: l) = a :: ofKey key l := by simp [ofKey]

theorem ofKey_cons_of_ne (h : k ≠ key) : ofKey key ((k, a) :: l) = ofKey key l := by
  simp [ofKey, h]

end OfKey

namespace IpFragmentReassembler

/-- Push in order, and give for each push its key and what came of it. -/
def pushEach (r : IpFragmentReassembler) :
    List (FragmentKey × Arrival) → IpFragmentReassembler × List (FragmentKey × Option (List UInt8))
  | [] => (r, [])
  | (k, f) :: run =>
    let (r', out) := r.pushArrival k f
    let (r'', outs) := r'.pushEach run
    (r'', (k, out) :: outs)

/-- The datagram of `key`, if one is pending, has not timed out. -/
def InTime (r : IpFragmentReassembler) (key : FragmentKey) (now : Timestamp) : Prop :=
  ∀ d, r.pending.lookup key = some d → now.saturatingSub d.first_seen ≤ r.config.timeout

/-- A push for `k` finds too many datagrams pending, and the one of `key` is dropped for it. -/
def Evicts (r : IpFragmentReassembler) (k key : FragmentKey) (now : Timestamp) : Prop :=
  (k ∉ (r.evictExpired now).pending ∧ r.config.max_datagrams ≤ (r.evictExpired now).pending.size) ∧
    key ∉ (r.evictExpired now).dropOldest.pending

/-- Along the run, as long as the datagram of `key` is pending, it neither times out nor is
evicted. -/
def Undisturbed (key : FragmentKey) : IpFragmentReassembler → List (FragmentKey × Arrival) → Prop
  | _, [] => True
  | r, (k, f) :: run =>
    (f.IsFragment → key ∈ r.pending → r.InTime key f.now ∧ ¬r.Evicts k key f.now) ∧
      Undisturbed key (r.pushArrival k f).1 run

variable {r : IpFragmentReassembler} {key k : FragmentKey} {f : Arrival} {l : List Arrival}
  {run : List (FragmentKey × Arrival)} {now : Timestamp}

theorem lookup_makeRoom_of_undisturbed {d : Reassembly}
    (hd : r.pending.lookup key = some d) (htm : r.InTime key now) (hev : ¬r.Evicts k key now) :
    (r.makeRoom k now).pending.lookup key = some d := by
  have hlk : (r.evictExpired now).pending.lookup key = some d := by
    rw [lookup_evictExpired, hd, Option.filter_some, decide_eq_true (htm d hd)]
    rfl
  unfold makeRoom
  dsimp only
  split_ifs with hfu
  · have hmem : key ∈ (r.evictExpired now).dropOldest.pending := by
      by_contra hnot
      exact hev ⟨hfu, hnot⟩
    unfold dropOldest at hmem ⊢
    split
    · exact hlk
    · next e he =>
      rw [he] at hmem
      have hne : key ≠ e.1 := (AList.mem_erase.mp hmem).1
      rw [Table.lookup_erase_eq, if_neg hne]
      exact hlk
  · exact hlk

/-- A push for another key leaves what is held for this one. -/
theorem Holds.push_other (h : r.Holds key l) (hk : key ≠ k)
    (hsp : f.IsFragment → key ∈ r.pending → r.InTime key f.now ∧ ¬r.Evicts k key f.now) :
    (r.pushArrival k f).1.Holds key l := by
  by_cases hf : f.IsFragment
  swap
  · rwa [pushArrival_of_not_fragment hf]
  have hor := (r.push_outcome k hf).2 key hk
  unfold Holds at h ⊢
  rw [hor]
  cases hd : r.pending.lookup key with
  | none =>
    rw [hd] at h
    cases hrm : (r.makeRoom k f.now).pending.lookup key with
    | none => exact h
    | some d =>
      rw [lookup_of_lookup_makeRoom hrm] at hd
      cases hd
  | some d =>
    rw [hd] at h
    obtain ⟨htm, hev⟩ := hsp hf (Table.mem_iff_lookup.mpr ⟨d, hd⟩)
    rw [lookup_makeRoom_of_undisturbed hd htm hev]
    exact h

theorem Holds.unexpired_eq (h : r.Holds key l) (htm : r.InTime key f.now) :
    unexpired r.config l f = l := by
  refine if_pos fun g hg => ?_
  unfold Holds at h
  cases hd : r.pending.lookup key with
  | none =>
    rw [hd] at h
    rw [h] at hg
    cases hg
  | some d =>
    rw [hd] at h
    rw [← h.2.first_seen g hg]
    exact htm d hd

theorem inTime_of_mem (h : key ∈ r.pending → r.InTime key now) :
    r.InTime key now := fun d hd => h (Table.mem_iff_lookup.mpr ⟨d, hd⟩) d hd

theorem holds_nil : r.Holds key [] ↔ key ∉ r.pending := by
  unfold Holds
  cases hd : r.pending.lookup key with
  | none => simpa using AList.lookup_eq_none.mp hd
  | some d =>
    have hmem : key ∈ r.pending := Table.mem_iff_lookup.mpr ⟨d, hd⟩
    simp [hmem]

section Run

variable {parts : List (List UInt8)} {rest : List Arrival}
  (hparts : ∀ part ∈ parts, part ≠ []) (htwo : 2 ≤ parts.length)

include hparts htwo

/-- A push of a fragment with others to come: it waits with those before it. -/
theorem Holds.push_waits (h : r.Holds key l) (hcut : Cut parts (l ++ f :: rest))
    (hrs : rest ≠ []) (hcap : parts.flatten.length ≤ r.config.max_datagram_bytes)
    (htm : r.InTime key f.now) :
    (r.pushArrival key f).2 = none ∧ (r.pushArrival key f).1.Holds key (l ++ [f]) := by
  have hf : f.IsFragment := isFragment_of_mem hparts htwo (hcut.mem (by simp))
  have hne : parts ≠ [] := by rintro rfl; simp at htwo
  obtain ⟨hnx, hout⟩ := h.push f
  have hun := h.unexpired_eq htm
  have hcm : ¬Completes r.config l f := by
    rintro ⟨-, hcv⟩
    rw [hun, hcut.covers_iff hparts hne] at hcv
    exact hrs hcv
  refine ⟨(hout hf).mpr hcm, ?_⟩
  rw [nextGroup, if_neg (not_not.mpr hf), hun, if_neg] at hnx
  · exact hnx
  · rintro (hrf | hc)
    · exact hcut.not_refuses hcap hrf
    · exact hcm hc

/-- The push of the last fragment that is to come gives the datagram. -/
theorem Holds.push_completes (h : r.Holds key l) (hcut : Cut parts (l ++ [f]))
    (hcap : parts.flatten.length ≤ r.config.max_datagram_bytes) (htm : r.InTime key f.now) :
    (r.pushArrival key f).2 = some parts.flatten ∧ (r.pushArrival key f).1.Holds key [] := by
  have hf : f.IsFragment := isFragment_of_mem hparts htwo (hcut.mem (by simp))
  have hne : parts ≠ [] := by rintro rfl; simp at htwo
  obtain ⟨hnx, hout⟩ := h.push f
  have hun := h.unexpired_eq htm
  have hrf : ¬Refuses r.config l f := hcut.not_refuses hcap
  have hcm : Completes r.config l f := by
    refine ⟨by rwa [hun], ?_⟩
    rw [hun, hcut.covers_iff hparts hne]
  rw [nextGroup, if_neg (not_not.mpr hf), if_pos (.inr hcm)] at hnx
  refine ⟨?_, hnx⟩
  obtain ⟨hhl, hfr⟩ := h.makeRoom f
  rw [hun] at hhl hfr
  have hso : (r.pushArrival key f).2 ≠ none := fun hnn => (hout hf).mp hnn hcm
  obtain ⟨hom, -⟩ := r.push_outcome key hf
  generalize (r.pushArrival key f).1.pending.lookup key = d?, (r.pushArrival key f).2 = out
    at hom hso ⊢
  cases hom with
  | poisoned => exact absurd rfl hso
  | dropped => exact absurd rfl hso
  | waits => exact absurd rfl hso
  | completes hap =>
    have hmt : ¬∃ g ∈ kept l, f.Meets g := by
      rintro ⟨g, hg, hmt⟩
      exact hcut.not_meets (mem_of_mem_kept hg) hmt
    exact congrArg some (hcut.flatMap_eq hparts (hhl.store hfr hmt))

end Run

/-- Once the datagram is complete, its key is not pushed for again, and nothing is pending for it. -/
theorem Holds.pushEach_none (h : r.Holds key []) (hrun : ofKey key run = []) :
    ofKey key (r.pushEach run).2 = [] ∧ key ∉ (r.pushEach run).1.pending := by
  induction run generalizing r with
  | nil => exact ⟨rfl, holds_nil.mp h⟩
  | cons c run ih =>
    obtain ⟨k, f⟩ := c
    by_cases hk : k = key
    · rw [hk, ofKey_cons_self] at hrun
      cases hrun
    · rw [ofKey_cons_of_ne hk] at hrun
      have hor : (r.pushArrival k f).1.Holds key [] :=
        h.push_other (Ne.symm hk) fun _ hmem => absurd hmem (holds_nil.mp h)
      obtain ⟨hos, hpn⟩ := ih hor hrun
      refine ⟨?_, hpn⟩
      rw [← hos]
      exact ofKey_cons_of_ne hk

/-- A run that pushes the fragments that are to come, with `l` held so far. -/
theorem Holds.pushEach {parts : List (List UInt8)} (hparts : ∀ part ∈ parts, part ≠ [])
    (htwo : 2 ≤ parts.length) (h : r.Holds key l)
    (hcut : Cut parts (l ++ ofKey key run)) (hrun : ofKey key run ≠ [])
    (hcap : parts.flatten.length ≤ r.config.max_datagram_bytes) (hsp : Undisturbed key r run) :
    ofKey key (r.pushEach run).2 =
        List.replicate ((ofKey key run).length - 1) none ++ [some parts.flatten] ∧
      key ∉ (r.pushEach run).1.pending := by
  induction run generalizing r l with
  | nil => exact absurd rfl hrun
  | cons c run ih =>
    obtain ⟨k, f⟩ := c
    obtain ⟨hspr, hsp⟩ := hsp
    have hcn : (r.pushArrival k f).1.config = r.config := config_push
    by_cases hk : k = key
    swap
    · rw [ofKey_cons_of_ne hk] at hcut hrun ⊢
      obtain ⟨hos, hpn⟩ :=
        ih (h.push_other (Ne.symm hk) hspr) hcut hrun (by rwa [hcn]) hsp
      refine ⟨?_, hpn⟩
      rw [← hos]
      exact ofKey_cons_of_ne hk
    subst hk
    rw [ofKey_cons_self] at hcut ⊢
    have hf : f.IsFragment := isFragment_of_mem hparts htwo (hcut.mem (by simp))
    have htm : r.InTime k f.now := inTime_of_mem fun hmem => (hspr hf hmem).1
    have hos : ofKey k (r.pushEach ((k, f) :: run)).2 =
        (r.pushArrival k f).2 :: ofKey k ((r.pushArrival k f).1.pushEach run).2 := ofKey_cons_self
    rw [hos]
    by_cases hls : ofKey k run = []
    · -- nothing else is to come
      rw [hls] at hcut ⊢
      obtain ⟨hout, hhs⟩ := h.push_completes hparts htwo hcut hcap htm
      obtain ⟨hnn, hpn⟩ := hhs.pushEach_none hls
      rw [hout, hnn]
      exact ⟨rfl, hpn⟩
    · obtain ⟨hout, hhs⟩ := h.push_waits hparts htwo hcut hls hcap htm
      rw [← singleton_append, ← append_assoc] at hcut
      obtain ⟨hrs, hpn⟩ := ih hhs hcut hls (by rwa [hcn]) hsp
      rw [hout, hrs]
      refine ⟨?_, hpn⟩
      have hln : (f :: ofKey k run).length - 1 = (ofKey k run).length - 1 + 1 := by
        have := length_pos_of_ne_nil hls
        rw [length_cons]
        omega
      rw [hln, replicate_succ, cons_append]

/-- The fragments of a datagram, pushed in any order and among pushes for other keys: each but the
last gives nothing, the last gives the datagram, and then nothing is pending for the key. -/
theorem reassembles_in_any_order (parts : List (List UInt8)) {run : List (FragmentKey × Arrival)}
    (hnew : key ∉ r.pending) (htwo : 2 ≤ parts.length) (hparts : ∀ part ∈ parts, part ≠ [])
    (hcap : parts.flatten.length ≤ r.config.max_datagram_bytes)
    (hrun : ((ofKey key run).map Arrival.fragment).Perm (fragmentsFrom 0 parts))
    (hspares : Undisturbed key r run) :
    ofKey key (r.pushEach run).2 =
        List.replicate (parts.length - 1) none ++ [some parts.flatten] ∧
      key ∉ (r.pushEach run).1.pending := by
  have hln : (ofKey key run).length = parts.length := by
    rw [← length_fragmentsFrom 0 parts, ← hrun.length_eq, length_map]
  have hne : ofKey key run ≠ [] := ne_nil_of_length_pos (by omega)
  rw [← hln]
  exact (holds_nil.mpr hnew).pushEach hparts htwo hrun hne hcap hspares

/-- The tail first, then a head for another key, then the head. -/
def swapped : List (FragmentKey × Arrival) :=
  [(udpKey, tail), (⟨.v4 1, .v4 2, 6, 7⟩, head 4), (udpKey, head 3)]

theorem undisturbed_swapped : Undisturbed udpKey (withConfig .default) swapped := by
  refine ⟨fun _ hmem => absurd hmem (AList.notMem_empty _), fun _ _ => ?_, fun _ _ => ?_, trivial⟩
  all_goals
    refine ⟨fun d _ => Nat.le_trans (Nat.sub_le _ _) (Nat.zero_le _), fun h => ?_⟩
    exact absurd h.1.2 (by decide +kernel)

theorem reassembles_in_any_order_swapped :
    udpKey ∉ (withConfig .default).pending ∧
      ofKey udpKey ((withConfig .default).pushEach swapped).2 =
        [none, some (List.replicate 8 3 ++ List.replicate 4 9)] ∧
      udpKey ∉ ((withConfig .default).pushEach swapped).1.pending :=
  ⟨AList.notMem_empty _, reassembles_in_any_order [List.replicate 8 3, List.replicate 4 9]
      (AList.notMem_empty _) (by decide) (by decide) (by decide) (by decide +kernel)
      undisturbed_swapped⟩

end IpFragmentReassembler

end Flowscope
