import Flowscope.Correlate.Bounded
import Mathlib.Data.Multiset.UnionInter

/-!
# Heavy hitters

What the counts of a `TopK` say about the weights that were observed (`src/correlate/topk.rs`). With what
was observed as a multiset, the counts hold a part of it and the rest is lost. When all counts go down by
`d`, at least `k` of them had as much, so that `k` times what one key loses is at most what all keys
lose (`Pays`). Merging adds up what is held and what is lost, and cutting down is such a step.

A new key that finds the table full takes its whole weight off every count, also off those that hold
less. So this needs such a key to weigh no more than any count there (`Light`), as keys that are
observed one at a time do.
-/

namespace Flowscope.Correlate.TopK

open Multiset Table

variable {K : Type} [DecidableEq K]

/-- A new key that finds the table full weighs no more than any count. -/
def Light (t : TopK K) (key : K) (count : BitVec 64) : Prop :=
  t.counts.lookup key = none → t.k ≤ t.counts.size →
    ∀ key' c, t.counts.lookup key' = some c → count ≤ c

/-- The instances for `k` keys, and what they observed: observations that meet a condition, and merges. No
count overflows. -/
inductive Run (ok : TopK K → K → BitVec 64 → Prop) (k : ℕ) : TopK K → Multiset K → Prop where
  | new : Run ok k (new k) 0
  | observeN {t : TopK K} {w : Multiset K} (h : Run ok k t w) (key : K) (count : BitVec 64)
      (hok : ok t key count) (hfits : (t.estimate key).toNat + count.toNat < 2^64) :
      Run ok k (t.observeN key count) (w + .replicate count.toNat key)
  | merge {t t' : TopK K} {w w' : Multiset K} (h : Run ok k t w) (h' : Run ok k t' w')
      (hfits : ∀ key, (t.estimate key).toNat + (t'.estimate key).toNat < 2^64) :
      Run ok k (t.merge t') (w + w')

/-! ## What is held and what is lost -/

/-- Of `w`, `f` is held. No key lost more than the `k`-th part of what is lost. -/
def Pays (k : ℕ) (w f : Multiset K) : Prop := ∃ g, w = f + g ∧ ∀ y, k * g.count y ≤ g.card

/-- What is left when every key loses `d`. -/
def lowered (d : ℕ) (f : Multiset K) : Multiset K := f - d • f.dedup

variable {k d : ℕ} {w w' f f' : Multiset K} {s : Finset K}

theorem count_lowered (y : K) : (lowered d f).count y = f.count y - d := by
  rw [lowered, count_sub, count_nsmul, count_dedup]
  split_ifs with h
  · rw [Nat.mul_one]
  · rw [count_eq_zero_of_notMem h, Nat.zero_sub, Nat.zero_sub]

namespace Pays

theorem add (h : Pays k w f) (x : Multiset K) : Pays k (w + x) (f + x) := by
  obtain ⟨g, rfl, hg⟩ := h
  exact ⟨g, add_right_comm f g x, hg⟩

theorem merge (h : Pays k w f) (h' : Pays k w' f') : Pays k (w + w') (f + f') := by
  obtain ⟨g, rfl, hg⟩ := h
  obtain ⟨g', rfl, hg'⟩ := h'
  refine ⟨g + g', add_add_add_comm f g f' g', fun y => ?_⟩
  rw [count_add, card_add, Nat.mul_add]
  exact Nat.add_le_add (hg y) (hg' y)

/-- Every key loses `d`, of what is held or of what arrives. Enough keys hold as much. -/
theorem lower (h : Pays k w f) (hs : k ≤ s.card) (hd : ∀ y ∈ s, d ≤ f.count y) {x : Multiset K}
    (hx : ∀ y, min (f.count y) d + x.count y ≤ d) : Pays k (w + x) (lowered d f) := by
  obtain ⟨g, rfl, hg⟩ := h
  have hct : ∀ y, (f ∩ d • f.dedup).count y = min (f.count y) d := by
    intro y
    rw [count_inter, count_nsmul, count_dedup]
    split_ifs with hy
    · rw [Nat.mul_one]
    · rw [count_eq_zero_of_notMem hy, Nat.zero_min, Nat.zero_min]
  have hlo : k * d ≤ (f ∩ d • f.dedup).card := by
    have hle : d • s.val ≤ f ∩ d • f.dedup := by
      rw [le_iff_count]
      intro y
      rw [count_nsmul, hct, count_eq_of_nodup s.nodup]
      split_ifs with hy
      · rw [Nat.mul_one]
        exact le_min (hd y hy) (Nat.le_refl d)
      · exact Nat.zero_le _
    calc
      k * d ≤ d * s.card := by rw [Nat.mul_comm d]; exact Nat.mul_le_mul_right d hs
      _ = (d • s.val).card := (card_nsmul _ _).symm
      _ ≤ (f ∩ d • f.dedup).card := card_le_card hle
  refine ⟨g + f ∩ d • f.dedup + x, ?_, fun y => ?_⟩
  · calc
      f + g + x = (lowered d f + f ∩ d • f.dedup) + g + x := by rw [lowered, sub_add_inter]
      _ = lowered d f + (g + f ∩ d • f.dedup + x) := by ac_rfl
  · have hy := hg y
    have hms := Nat.mul_le_mul_left k (hx y)
    rw [count_add, count_add, card_add, card_add, hct, Nat.add_assoc, Nat.mul_add]
    omega

end Pays

/-! ## The counts -/

/-- A table holds `f`. -/
structure Holds (counts : Table K (BitVec 64)) (f : Multiset K) : Prop where
  toNat : ∀ key, ((counts.lookup key).getD 0).toNat = f.count key
  none : ∀ key ∉ f, counts.lookup key = none

/-- Take `d` off all counts, and drop those that do not have more. -/
def lower (d : BitVec 64) (counts : Table K (BitVec 64)) : Table K (BitVec 64) :=
  (counts.retain fun _ c => ¬ c ≤ d).mapVals fun _ c => c - d

variable {counts counts' : Table K (BitVec 64)} {key : K} {count : BitVec 64}

theorem not_mem (h : counts.lookup key = none) : key ∉ counts := by
  rw [mem_iff_lookup, h]
  exact nofun

namespace Holds

variable (h : Holds counts f)
include h

/-- A count that is held is not zero. -/
theorem of_some {c : BitVec 64} (hc : counts.lookup key = some c) : c.toNat = f.count key ∧ key ∈ f := by
  have hct := h.toNat key
  rw [hc] at hct
  refine ⟨hct, ?_⟩
  by_contra hnot
  rw [h.none key hnot] at hc
  exact nomatch hc

theorem put (hct : count ≠ 0) (hfits : f.count key + count.toNat < 2^64) :
    Holds (counts.put key ((counts.lookup key).getD 0 + count)) (f + .replicate count.toNat key) := by
  have hadd : ((counts.lookup key).getD 0 + count).toNat = f.count key + count.toNat := by
    rw [BitVec.toNat_add, h.toNat, Nat.mod_eq_of_lt hfits]
  refine ⟨fun y => ?_, fun y hy => ?_⟩
  · rw [lookup_put, count_add, count_replicate]
    split_ifs with hkey hky' hky'
    · rw [Option.getD_some, hadd, hkey]
    · exact absurd hkey.symm hky'
    · exact absurd hky'.symm hkey
    · exact h.toNat y
  · rw [mem_add, mem_replicate, not_or, not_and] at hy
    have hzr : count.toNat ≠ 0 := fun hzr => hct (BitVec.eq_of_toNat_eq hzr)
    rw [lookup_put, if_neg (hy.2 hzr)]
    exact h.none y hy.1

theorem insert (hct : count ≠ 0) (hkey : key ∉ f) :
    Holds (counts.insert key count) (f + .replicate count.toNat key) := by
  have hzr := count_eq_zero.mpr hkey
  have hfits : f.count key + count.toNat < 2^64 := by
    rw [hzr, Nat.zero_add]
    exact count.isLt
  have hput := h.put hct hfits
  rwa [h.none key hkey, Option.getD_none, zero_add, Table.put, if_neg (not_mem (h.none key hkey))] at hput

theorem lower : Holds (TopK.lower count counts) (lowered count.toNat f) := by
  refine ⟨fun y => ?_, fun y hy => ?_⟩
  · rw [TopK.lower, lookup_mapVals, lookup_retain, count_lowered, ← h.toNat]
    cases counts.lookup y with
    | none => exact (Nat.zero_sub _).symm
    | some c =>
      rw [Option.filter_some]
      split_ifs with hlt
      · have hlt : count < c := BitVec.not_le.mp (of_decide_eq_true hlt)
        exact BitVec.toNat_sub_of_le (BitVec.le_of_lt hlt)
      · have hle : c ≤ count := by simpa using hlt
        exact (Nat.sub_eq_zero_of_le hle).symm
  · rw [TopK.lower, lookup_mapVals, lookup_retain, Option.map_eq_none_iff,
      Option.filter_eq_none_iff]
    intro c hc
    rw [← count_eq_zero, count_lowered, ← (h.of_some hc).1] at hy
    simpa [BitVec.le_def] using Nat.sub_eq_zero_iff_le.mp hy

theorem merge (h' : Holds counts' f') (hfits : ∀ key, f.count key + f'.count key < 2^64) :
    Holds (counts.mergeWith (· + ·) counts') (f + f') := by
  refine ⟨fun y => ?_, fun y hy => ?_⟩
  · have hadd : ((counts.lookup y).getD 0 + (counts'.lookup y).getD 0).toNat =
        (f + f').count y := by
      rw [BitVec.toNat_add, h.toNat, h'.toNat, count_add, Nat.mod_eq_of_lt (hfits y)]
    rw [← hadd, lookup_mergeWith]
    cases counts.lookup y <;> cases counts'.lookup y <;> simp
  · rw [mem_add, not_or] at hy
    rw [lookup_mergeWith, h.none y hy.1, h'.none y hy.2]
    rfl

/-- All counts go down by what enough of them have. -/
theorem pays_lower (hpy : Pays k w f) (hmn : k ≤ (counts.retain fun _ c => count ≤ c).size)
    {x : Multiset K} (hx : ∀ y, min (f.count y) count.toNat + x.count y ≤ count.toNat) :
    Pays k (w + x) (lowered count.toNat f) := by
  refine hpy.lower (s := (counts.retain fun _ c => count ≤ c).keySet) ?_ (fun y hy => ?_) hx
  · rwa [card_keySet]
  · rw [mem_keySet, mem_iff_lookup] at hy
    obtain ⟨c, hc⟩ := hy
    rw [lookup_retain, Option.filter_eq_some_iff, decide_eq_true_eq] at hc
    rw [← (h.of_some hc.1).1]
    exact hc.2

end Holds

omit [DecidableEq K] in
/-- Cutting down to `k` keys, enough counts have as much as is taken off, and not too many have more. -/
theorem sorted_cut (hsz : k < counts.size) :
    k ≤ (counts.retain fun _ c => (sorted counts).getD k 0 ≤ c).size ∧
      (counts.retain fun _ c => ¬ c ≤ (sorted counts).getD k 0).size ≤ k := by
  have hpr : (counts.entries.map (·.2)).Perm (sorted counts) := by
    refine .trans (.of_eq ?_) (List.perm_insertionSort _ _).symm
    rw [Table.toList, List.map_map]
    rfl
  have hct : ∀ p : BitVec 64 → Bool,
      (counts.retain fun _ c => p c).size = (sorted counts).countP p := by
    intro p
    rw [← hpr.countP_eq, List.countP_map, List.countP_eq_length_filter]
    rfl
  have hlen : k < (sorted counts).length := by
    rw [← hpr.length_eq, List.length_map]
    exact hsz
  have hsr : (sorted counts).Pairwise fun a b => b ≤ a := pairwise_insertionSort_desc id _
  -- those before the cut are no less, those behind it are no more
  have hcut : sorted counts =
      (sorted counts).take k ++ (sorted counts).getD k 0 :: (sorted counts).drop (k + 1) := by
    rw [List.getD_eq_getElem?_getD, List.getElem?_eq_getElem hlen, Option.getD_some,
      ← List.drop_eq_getElem_cons hlen, List.take_append_drop]
  have hfn : ((sorted counts).take k).length = k := List.length_take_of_le hlen.le
  rw [hct, hct fun c => ¬ c ≤ _]
  generalize (sorted counts).getD k 0 = pivot at hcut ⊢
  rw [hcut] at hsr
  obtain ⟨-, hbc, hac⟩ := List.pairwise_append.mp hsr
  rw [hcut, List.countP_append, List.countP_append]
  constructor
  · rw [List.countP_eq_length.mpr, hfn]
    · exact Nat.le_add_right _ _
    · exact fun a ha => decide_eq_true (hac a ha pivot List.mem_cons_self)
  · have hnn : (pivot :: (sorted counts).drop (k + 1)).countP (fun c => ¬ c ≤ pivot) = 0 := by
      rw [List.countP_eq_zero]
      intro c hc
      have hle : c ≤ pivot := by
        rcases List.mem_cons.mp hc with rfl | hc
        · exact BitVec.le_refl c
        · exact List.rel_of_pairwise_cons hbc hc
      simpa using hle
    rw [hnn]
    exact List.countP_le_length.trans hfn.le

/-! ## Runs -/

/-- An instance for `k` keys that observed `w`. -/
structure Sound (k : ℕ) (t : TopK K) (w : Multiset K) : Prop where
  k_eq : t.k = k
  size_le : t.counts.size ≤ k
  holds : ∃ f, Holds t.counts f ∧ Pays k w f

variable {t t' : TopK K}

theorem Sound.observeN (h : Sound k t w) (hlg : t.Light key count)
    (hfits : (t.estimate key).toNat + count.toNat < 2^64) :
    Sound k (t.observeN key count) (w + .replicate count.toNat key) := by
  obtain ⟨rfl, hsz, f, hf, hpy⟩ := h
  rw [TopK.observeN]
  by_cases hct : count = 0
  · rw [hct]
    exact ⟨rfl, hsz, f, hf, by simpa using hpy⟩
  rw [estimate, hf.toNat] at hfits
  rw [if_neg hct]
  cases hkey : t.counts.lookup key with
  | some c =>
    have hput := hf.put hct hfits
    rw [hkey] at hput
    refine ⟨rfl, ?_, _, hput, hpy.add _⟩
    dsimp only
    rw [Table.put, if_pos (mem_iff_lookup.mpr ⟨c, hkey⟩), size_mapVals]
    exact hsz
  | none =>
    have hzr : f.count key = 0 := by rw [← hf.toNat, hkey]; rfl
    by_cases hrm : t.counts.size < t.k
    · rw [if_pos hrm]
      refine ⟨rfl, ?_, _, hf.insert hct (count_eq_zero.mp hzr), hpy.add _⟩
      rw [size_insert_of_not_mem (not_mem hkey)]
      exact hrm
    rw [if_neg hrm]
    -- every count has as much as the key weighs
    have hmn : t.k ≤ (t.counts.retain fun _ c => count ≤ c).size := by
      have hall : ∀ e ∈ t.counts.entries, decide (count ≤ e.2) = true := fun e he =>
        decide_eq_true (hlg hkey (not_lt.mp hrm) e.1 e.2 (lookup_eq_some.mpr he))
      exact (not_lt.mp hrm).trans (congrArg List.length (List.filter_eq_self.mpr hall)).ge
    change Sound t.k ⟨t.k, if (TopK.lower count t.counts).size < t.k then
      (TopK.lower count t.counts).insert key count else TopK.lower count t.counts⟩ _
    split_ifs with hrm'
    · have hcut := hf.pays_lower hpy hmn (x := 0) fun y => by simp
      have hnot : key ∉ lowered count.toNat f := by
        rw [← count_eq_zero, count_lowered, hzr, Nat.zero_sub]
      rw [add_zero] at hcut
      refine ⟨rfl, ?_, _, hf.lower.insert hct hnot, hcut.add _⟩
      rw [size_insert_of_not_mem (not_mem (hf.lower.none key hnot))]
      exact hrm'
    · refine ⟨rfl, ?_, _, hf.lower, hf.pays_lower hpy hmn fun y => ?_⟩
      · exact ((size_mapVals _ _).trans_le (List.length_filter_le _ _)).trans hsz
      · rw [count_replicate]
        split_ifs with hy
        · rw [← hy, hzr, Nat.zero_min, Nat.zero_add]
        · exact min_le_right _ _

theorem Sound.merge (h : Sound k t w) (h' : Sound k t' w')
    (hfits : ∀ key, (t.estimate key).toNat + (t'.estimate key).toNat < 2^64) :
    Sound k (t.merge t') (w + w') := by
  obtain ⟨rfl, -, f, hf, hpy⟩ := h
  obtain ⟨-, -, f', hf', hpy'⟩ := h'
  have hbh := hf.merge hf' fun key => by simpa only [estimate, hf.toNat, hf'.toNat] using hfits key
  rw [TopK.merge, truncate]
  split_ifs with hsz
  · exact ⟨rfl, hsz, _, hbh, hpy.merge hpy'⟩
  · obtain ⟨hmn, hle⟩ := sorted_cut (not_le.mp hsz)
    refine ⟨rfl, (size_mapVals _ _).trans_le hle, _, hbh.lower, ?_⟩
    have hcut := hbh.pays_lower (hpy.merge hpy') hmn (x := 0) fun y => by simp
    rwa [add_zero] at hcut

theorem Run.sound {ok : TopK K → K → BitVec 64 → Prop} (h : Run ok k t w)
    (hok : ∀ t w key count, Sound k t w → ok t key count → t.Light key count) : Sound k t w := by
  induction h with
  | new =>
    have hhs : Holds (∅ : Table K (BitVec 64)) 0 := ⟨fun _ => rfl, fun _ _ => rfl⟩
    exact ⟨rfl, Nat.zero_le k, 0, hhs, 0, rfl, fun y => by simp⟩
  | observeN _ key count hstp hfits ih => exact ih.observeN (hok _ _ key count ih hstp) hfits
  | merge _ _ hfits ih ih' => exact ih.merge ih' hfits

/-- Where no key that finds the table full outweighs a count, an estimate lacks at most the `k`-th part of
the total weight, and a key that weighs more than that is held. -/
theorem Run.estimate_of_light (h : Run Light k t w) (key : K) :
    (t.estimate key).toNat ≤ w.count key ∧ k * w.count key ≤ k * (t.estimate key).toNat + w.card ∧
      (w.card < k * w.count key → key ∈ t.counts) := by
  obtain ⟨-, -, f, hf, g, rfl, hg⟩ := h.sound fun _ _ _ _ _ hlg => hlg
  have hkey := hg key
  rw [estimate, hf.toNat, count_add, card_add, Nat.mul_add]
  refine ⟨Nat.le_add_right _ _, by omega, fun hlt => ?_⟩
  by_contra hnot
  have hzr : f.count key = 0 := by rw [← hf.toNat, AList.lookup_eq_none.mpr hnot]; rfl
  rw [hzr] at hlt
  omega

/-- All counts of an instance meet a condition that its entries meet. -/
theorem forall_lookup {P : BitVec 64 → Prop} (h : ∀ e ∈ t.counts.entries, P e.2) {c : BitVec 64}
    (hc : t.counts.lookup key = some c) : P c :=
  h ⟨key, c⟩ (lookup_eq_some.mp hc)


/-- Two keys fill the table, and a third one takes its weight off both: the heavy one is still there. -/
theorem estimate_of_light_full :
    let t := (((new 2 : TopK ℕ).observeN 0 8).observeN 1 3).observeN 2 2
    t.estimate 0 = 6 ∧ 2 * 8 ≤ 2 * (t.estimate 0).toNat + 13 ∧ 0 ∈ t.counts := by
  have hfst : (new 2 : TopK ℕ).Light 0 8 := fun _ h => absurd h (by decide)
  have hsnd : ((new 2 : TopK ℕ).observeN 0 8).Light 1 3 := fun _ h => absurd h (by decide)
  have hthird : (((new 2 : TopK ℕ).observeN 0 8).observeN 1 3).Light 2 2 :=
    fun _ _ _ _ hc => forall_lookup (by decide) hc
  have hest := Run.estimate_of_light (.observeN (.observeN (.observeN .new 0 8 hfst (by decide)) 1 3 hsnd
    (by decide)) 2 2 hthird (by decide)) 0
  exact ⟨by decide, hest.2.1, hest.2.2 (by decide)⟩

/-- A key of weight `100` is lost to one of weight `100` that finds two light ones. -/
theorem estimate_of_heavy : ∃ (t : TopK ℕ) (w : Multiset ℕ), Run (fun _ _ _ => True) 3 t w ∧
    w.card < 3 * w.count 0 ∧ t.estimate 0 = 0 ∧ 0 ∉ t.counts := by
  refine ⟨_, _, .observeN (.observeN (.observeN (.observeN .new 0 100 trivial ?_) 1 1 trivial ?_) 2 1
    trivial ?_) 3 100 trivial ?_, ?_⟩
  all_goals decide +kernel

/-- Of keys that are observed one at a time, an instance holds at most `k`, and the bound holds after any
merges. -/
theorem Run.estimate_of_unit (h : Run (fun _ _ count => count = 1) k t w) :
    t.len ≤ k ∧ ∀ key, (t.estimate key).toNat ≤ w.count key ∧
      k * (w.count key - (t.estimate key).toNat) + ∑ y ∈ t.counts.keySet, (t.estimate y).toNat ≤ w.card := by
  have hlg : ∀ (t : TopK K) w key count, Sound k t w → count = 1 → t.Light key count := by
    rintro t w key count ⟨-, -, f, hf, -⟩ rfl - - key' c hc
    rw [BitVec.le_def, (hf.of_some hc).1]
    exact one_le_count_iff_mem.mpr (hf.of_some hc).2
  obtain ⟨-, hsz, f, hf, g, rfl, hg⟩ := h.sound hlg
  have hhl : ∑ y ∈ t.counts.keySet, (t.estimate y).toNat = f.card := by
    have hky : ∀ y ∈ f, y ∈ t.counts.keySet := by
      intro y hy
      rw [mem_keySet]
      by_contra hnot
      have hct := hf.toNat y
      rw [AList.lookup_eq_none.mpr hnot] at hct
      exact count_ne_zero.mpr hy hct.symm
    simp only [estimate, hf.toNat]
    exact sum_count_eq_card hky
  refine ⟨hsz, fun key => ?_⟩
  have hkey := hg key
  rw [estimate, hf.toNat, count_add, card_add, Nat.add_sub_cancel_left]
  exact ⟨Nat.le_add_right _ _, by omega⟩

/-- The keys of a list, one at a time. -/
def observed (k : ℕ) (keys : List K) : TopK K := keys.foldl (fun t key => t.observeN key 1) (new k)

/-- A third key takes one off both counts of a full table, and the merge with another full one cuts the
counts down to one. -/
theorem estimate_of_unit_merged :
    let t := (observed 2 [0, 0, 0, 1, 2]).merge (observed 2 [3, 4])
    t.counts.toList = [(0, 1)] ∧ t.len ≤ 2 ∧
      2 * (3 - (t.estimate 0).toNat) + ∑ y ∈ t.counts.keySet, (t.estimate y).toNat ≤ 7 := by
  have hrun : Run (fun _ _ count => count = 1) 2 (observed 2 [0, 0, 0, 1, 2]) _ :=
    .observeN (.observeN (.observeN (.observeN (.observeN .new 0 1 rfl (by decide)) 0 1 rfl
      (by decide)) 0 1 rfl (by decide)) 1 1 rfl (by decide)) 2 1 rfl (by decide)
  have hrun' : Run (fun _ _ count => count = 1) 2 (observed 2 [3, 4]) _ :=
    .observeN (.observeN .new 3 1 rfl (by decide)) 4 1 rfl (by decide)
  have hsmall : ∀ {t : TopK ℕ}, (∀ e ∈ t.counts.entries, e.2 < 3) → ∀ key, (t.estimate key).toNat < 3 := by
    intro t h key
    unfold estimate
    cases hc : t.counts.lookup key with
    | none => exact Nat.zero_lt_succ _
    | some c => exact forall_lookup (P := (· < 3)) h hc
  have hest := Run.estimate_of_unit (hrun.merge hrun' fun key => by
    have hle := hsmall (t := observed 2 [0, 0, 0, 1, 2]) (by decide) key
    have hle' := hsmall (t := observed 2 [3, 4]) (by decide) key
    omega)
  exact ⟨by decide, hest.1, (hest.2 0).2⟩

end Flowscope.Correlate.TopK
