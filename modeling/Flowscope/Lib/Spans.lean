import Flowscope.Lib.OrdMap

/-!
# Labelled spans

A map from the starts of spans to their ends and labels, kept disjoint while spans are cut and
written over one another. `cut` and `put` work on the map entry by entry; `mem_cut` says which
spans are left, and the proofs after it use only that. What a reader of the map sees is `lookup`:
cutting removes the labels of a range and keeps all others (`lookup_cut`), writing replaces them
(`lookup_put`), and `spanEnd` finds a range on which the label does not change
(`lookup_of_lt_spanEnd`).
-/

universe u

/-- Spans by start, each with its end and its label. -/
abbrev Spans (α : Type u) : Type u := OrdMap ℕ (ℕ × α)

namespace Spans

open OrdMap

variable {α : Type u}

/-- The label at an offset. -/
def lookup (m : Spans α) (off : ℕ) : Option α :=
  match (m.upTo off).getLast? with
  | some (_, e, x) => if off < e then some x else none
  | none => none

/-- The end of the span that covers an offset, or else the next offset. -/
def spanEnd (m : Spans α) (off : ℕ) : ℕ :=
  match (m.upTo off).getLast? with
  | some (_, e, _) => max e (off + 1)
  | none => off + 1

/-- Cut the span that starts before `a` and reaches into `[a, b)`. -/
def cutAcross (m : Spans α) (a b : ℕ) : Spans α :=
  match (m.below a).getLast? with
  | some (s, e, x) =>
    if a < e then
      let m := m.insert s (a, x)
      if b < e then m.insert b (e, x) else m
    else m
  | none => m

/-- Remove the span that starts at `s`, except for what lies past `b`. -/
def cutInside (b : ℕ) (m : Spans α) (s : ℕ) : Spans α :=
  match m.get? s with
  | some (e, x) =>
    let m := m.erase s
    if b < e then m.insert b (e, x) else m
  | none => m

/-- Remove the labels of `[a, b)`, splitting spans that straddle its ends. -/
def cut (m : Spans α) (a b : ℕ) : Spans α :=
  let m := m.cutAcross a b
  ((m.between a b).map Prod.fst).foldl (cutInside b) m

/-- Label `[a, b)`, replacing the labels there. -/
def put (m : Spans α) (a b : ℕ) (x : α) : Spans α :=
  if b ≤ a then m else (m.cut a b).insert a (b, x)

/-- The spans are not empty and do not overlap. -/
def Apart (m : Spans α) : Prop :=
  (∀ s e x, (s, e, x) ∈ m → s < e) ∧
    ∀ s e x s' e' x', (s, e, x) ∈ m → (s', e', x') ∈ m → s < s' → e ≤ s'

theorem apart_empty : Apart (empty : Spans α) :=
  ⟨fun _ _ _ h => absurd h (not_mem_empty _), fun _ _ _ _ _ _ h => absurd h (not_mem_empty _)⟩

variable {m : Spans α} {a b : ℕ} {off : ℕ} {x : α}

/-- The label at an offset is that of the span that covers it. -/
theorem lookup_eq_some (h : m.Apart) :
    m.lookup off = some x ↔ ∃ s e, (s, e, x) ∈ m ∧ s ≤ off ∧ off < e := by
  unfold lookup
  constructor
  · intro hl
    cases hls : (m.upTo off).getLast? with
    | none => simp [hls] at hl
    | some en =>
      obtain ⟨s, e, y⟩ := en
      obtain ⟨hm, hs, -⟩ := getLast?_upTo hls
      simp only [hls] at hl
      split_ifs at hl with he
      obtain rfl := Option.some.inj hl
      exact ⟨s, e, hm, hs, he⟩
  · rintro ⟨s, e, hm, hs, he⟩
    cases hls : (m.upTo off).getLast? with
    | none =>
      have := getLast?_upTo_eq_none.mp hls _ hm
      omega
    | some en =>
      obtain ⟨s', e', y⟩ := en
      obtain ⟨hm', hs', hmax⟩ := getLast?_upTo hls
      have hle : s ≤ s' := hmax _ hm hs
      rcases hle.lt_or_eq with hlt | rfl
      · have := h.2 _ _ _ _ _ _ hm hm' hlt
        omega
      · obtain ⟨-, rfl, rfl⟩ : s = s ∧ e = e' ∧ x = y := by
          simpa using eq_of_mem hm hm' rfl
        exact if_pos he

theorem lt_spanEnd (m : Spans α) (off : ℕ) : off < m.spanEnd off := by
  unfold spanEnd
  split <;> omega

/-- The label does not change up to the end of the span. -/
theorem lookup_of_lt_spanEnd (h : m.Apart) {i : ℕ} (hle : off ≤ i) (hlt : i < m.spanEnd off) :
    m.lookup i = m.lookup off := by
  rcases hle.eq_or_lt with rfl | hlt'
  · rfl
  unfold spanEnd at hlt
  cases hls : (m.upTo off).getLast? with
  | none =>
    simp only [hls] at hlt
    omega
  | some en =>
    obtain ⟨s, e, x⟩ := en
    obtain ⟨hm, hs, -⟩ := getLast?_upTo hls
    simp only [hls] at hlt
    have hcr : ∀ j, off ≤ j → j ≤ i → m.lookup j = some x := fun j hj hj' =>
      (lookup_eq_some h).mpr ⟨s, e, hm, by omega, by omega⟩
    rw [hcr i hle le_rfl, hcr off le_rfl hle]

/-- The spans that cutting `[a, b)` leaves: of each span, the part before the range and the part
after it. -/
def Parts (m : Spans α) (a b s e : ℕ) (x : α) : Prop :=
  (∃ e0, (s, e0, x) ∈ m ∧ s < a ∧ e = min e0 a) ∨ ∃ s0, (s0, e, x) ∈ m ∧ b < e ∧ s = max s0 b

/-- `t` has the spans of `m`, with `[a, b)` cut out of the one at `s`. -/
def Trims (a b : ℕ) (m : Spans α) (s e : ℕ) (x : α) (t : Spans α) : Prop :=
  ∀ s' e' x', (s', e', x') ∈ t ↔ (s', e', x') ∈ m ∧ s' ≠ s ∨
    s < a ∧ s' = s ∧ e' = a ∧ x' = x ∨ b < e ∧ s' = b ∧ e' = e ∧ x' = x

variable (h : m.Apart)
include h

section Trims

variable {t : Spans α} {s e : ℕ} (hm : (s, e, x) ∈ m)
include hm

/-- Every other span is before or after. -/
theorem Apart.beside {s' e' : ℕ} {x' : α} (hm' : (s', e', x') ∈ m) (hne : s' ≠ s) :
    e' ≤ s ∨ e ≤ s' := by
  rcases hne.lt_or_gt with hlt | hlt
  · exact .inl (h.2 _ _ _ _ _ _ hm' hm hlt)
  · exact .inr (h.2 _ _ _ _ _ _ hm hm' hlt)

/-- No span starts at `b` inside the one at `s`, so the part after the range can be written there. -/
theorem Apart.trims_insert (hsb : s < b)
    (ht : ∀ s' e' x', (s', e', x') ∈ t ↔ (s', e', x') ∈ m ∧ s' ≠ s ∨
      s < a ∧ s' = s ∧ e' = a ∧ x' = x) :
    Trims a b m s e x (if b < e then t.insert b (e, x) else t) := by
  intro s' e' x'
  split_ifs with hbe
  · rw [mem_insert, ht]
    simp only [Prod.mk.injEq]
    have hb : (s', e', x') ∈ m → s' ≠ s → s' ≠ b := by
      rintro hm' hne rfl
      have := h.1 _ _ _ hm'
      rcases h.beside hm hm' hne with h' | h' <;> omega
    constructor
    · rintro (heq | ⟨hl, -⟩)
      · exact .inr (.inr ⟨hbe, heq⟩)
      · exact hl.imp_right .inl
    · rintro (⟨hm', hne⟩ | ⟨ha, hl⟩ | ⟨-, heq⟩)
      · exact .inr ⟨.inl ⟨hm', hne⟩, hb hm' hne⟩
      · exact .inr ⟨.inr ⟨ha, hl⟩, by omega⟩
      · exact .inl heq
  · rw [ht]
    simp [hbe]

variable (ht : Trims a b m s e x t) (hab : a < b) (hsb : s < b) (hae : a < e)
include ht hab hsb hae

theorem Trims.apart : t.Apart := by
  refine ⟨fun s1 e1 x1 h1 => ?_, fun s1 e1 x1 s2 e2 x2 h1 h2 hlt => ?_⟩
  · rcases (ht _ _ _).mp h1 with ⟨hm1, -⟩ | ⟨hsa, rfl, rfl, -⟩ | ⟨hbe, rfl, rfl, -⟩
    · exact h.1 _ _ _ hm1
    · exact hsa
    · exact hbe
  · rcases (ht _ _ _).mp h1 with ⟨hm1, hn1⟩ | ⟨hsa, rfl, rfl, -⟩ | ⟨hbe, rfl, rfl, -⟩ <;>
      rcases (ht _ _ _).mp h2 with ⟨hm2, hn2⟩ | ⟨hsa', rfl, rfl, -⟩ | ⟨hbe', rfl, rfl, -⟩
    · exact h.2 _ _ _ _ _ _ hm1 hm2 hlt
    all_goals first
      | omega
      | (rcases h.beside hm hm1 hn1 with h' | h' <;> omega)
      | (have hlt' := h.1 _ _ _ hm2
         rcases h.beside hm hm2 hn2 with h' | h' <;> omega)

omit h in
/-- Trimming one span changes none of the parts. -/
theorem Trims.parts (s' e' : ℕ) (y : α) : Parts t a b s' e' y ↔ Parts m a b s' e' y := by
  have hun : ∀ {e0 y}, (s, e0, y) ∈ m → e0 = e ∧ y = x := fun hm' => by
    simpa using eq_of_mem hm' hm rfl
  constructor
  · rintro (⟨e0, h0, hlt, rfl⟩ | ⟨s0, h0, hlt, rfl⟩)
    · rcases (ht _ _ _).mp h0 with ⟨h0, -⟩ | ⟨-, rfl, rfl, rfl⟩ | ⟨-, rfl, -⟩
      · exact .inl ⟨e0, h0, hlt, rfl⟩
      · exact .inl ⟨e, hm, hlt, by omega⟩
      · omega
    · rcases (ht _ _ _).mp h0 with ⟨h0, -⟩ | ⟨-, -, rfl, -⟩ | ⟨-, rfl, rfl, rfl⟩
      · exact .inr ⟨s0, h0, hlt, rfl⟩
      · omega
      · exact .inr ⟨s, hm, hlt, by omega⟩
  · rintro (⟨e0, h0, hlt, rfl⟩ | ⟨s0, h0, hlt, rfl⟩)
    · by_cases hne : s' = s
      · subst hne
        obtain ⟨rfl, rfl⟩ := hun h0
        exact .inl ⟨a, (ht _ _ _).mpr (.inr (.inl ⟨hlt, rfl, rfl, rfl⟩)), hlt, by omega⟩
      · exact .inl ⟨e0, (ht _ _ _).mpr (.inl ⟨h0, hne⟩), hlt, rfl⟩
    · by_cases hne : s0 = s
      · subst hne
        obtain ⟨rfl, rfl⟩ := hun h0
        exact .inr ⟨b, (ht _ _ _).mpr (.inr (.inr ⟨hlt, rfl, rfl, rfl⟩)), hlt, by omega⟩
      · exact .inr ⟨s0, (ht _ _ _).mpr (.inl ⟨h0, hne⟩), hlt, rfl⟩

end Trims

/-- The span across `a` is trimmed, if there is one. -/
theorem cutAcross_spec (hab : a < b) :
    Apart (m.cutAcross a b) ∧ (∀ s e x, (s, e, x) ∈ m.cutAcross a b → s < a → e ≤ a) ∧
      ∀ s e x, Parts (m.cutAcross a b) a b s e x ↔ Parts m a b s e x := by
  unfold cutAcross
  cases hls : (m.below a).getLast? with
  | none =>
    refine ⟨h, fun s e x hm hs => ?_, fun _ _ _ => .rfl⟩
    exact absurd (getLast?_below_eq_none.mp hls _ hm) (not_le.mpr hs)
  | some en =>
    obtain ⟨s, e, x⟩ := en
    obtain ⟨hm, hs, hmax⟩ := getLast?_below hls
    dsimp only at hs hmax ⊢
    -- the spans before it end before it starts
    have hbf : ∀ {s' e' x'}, (s', e', x') ∈ m → s' < a → s' ≠ s → e' ≤ s := fun hm' hs' hne =>
      h.2 _ _ _ _ _ _ hm' hm (lt_of_le_of_ne (hmax _ hm' hs') hne)
    by_cases ha : a < e
    · rw [if_pos ha]
      have ht : Trims a b m s e x _ := h.trims_insert (t := m.insert s (a, x)) hm (hs.trans hab)
        fun s' e' x' => by
          rw [mem_insert]
          simp only [Prod.mk.injEq]
          tauto
      refine ⟨ht.apart h hm hab (hs.trans hab) ha, fun s' e' x' hm' hs' => ?_,
        ht.parts hm hab (hs.trans hab) ha⟩
      rcases (ht _ _ _).mp hm' with ⟨hm', hne⟩ | ⟨-, -, rfl, -⟩ | ⟨-, rfl, -⟩
      · have := hbf hm' hs' hne
        omega
      · exact le_rfl
      · omega
    · rw [if_neg ha]
      refine ⟨h, fun s' e' x' hm' hs' => ?_, fun _ _ _ => .rfl⟩
      by_cases hne : s' = s
      · subst hne
        have : e' = e := by simpa using (congrArg (·.2.1) (eq_of_mem hm' hm rfl))
        omega
      · have := hbf hm' hs' hne
        omega

/-- Trimming the spans of a list that has all starts in the range, after the one across `a`. -/
theorem foldl_cutInside_spec (hab : a < b) {l : List ℕ} (hl : ∀ s ∈ l, a ≤ s ∧ s < b)
    (hin : ∀ s e x, (s, e, x) ∈ m → a ≤ s → s < b → s ∈ l)
    (hlo : ∀ s e x, (s, e, x) ∈ m → s < a → e ≤ a) :
    Apart (l.foldl (cutInside b) m) ∧
      ∀ s e x, (s, e, x) ∈ l.foldl (cutInside b) m ↔ Parts m a b s e x := by
  induction l generalizing m with
  | nil =>
    refine ⟨h, fun s e x => ⟨fun hm => ?_, ?_⟩⟩
    · by_cases hs : s < a
      · exact .inl ⟨e, hm, hs, (min_eq_left (hlo _ _ _ hm hs)).symm⟩
      · have := h.1 _ _ _ hm
        have hsb : b ≤ s := not_lt.mp fun hsb => absurd (hin _ _ _ hm (not_lt.mp hs) hsb) (by simp)
        exact .inr ⟨s, hm, by omega, by omega⟩
    · rintro (⟨e0, hm, hs, rfl⟩ | ⟨s0, hm, hlt, rfl⟩)
      · rwa [min_eq_left (hlo _ _ _ hm hs)]
      · have hsb : b ≤ s0 := by
          by_contra hsb
          by_cases hs : s0 < a
          · have := hlo _ _ _ hm hs
            omega
          · exact absurd (hin _ _ _ hm (by omega) (by omega)) (by simp)
        rwa [max_eq_left hsb]
  | cons s l ih =>
    obtain ⟨has, hsb⟩ := hl s (by simp)
    rw [List.foldl_cons]
    have hl' : ∀ s ∈ l, a ≤ s ∧ s < b := fun s' hs' => hl s' (by simp [hs'])
    cases hg : m.get? s with
    | none =>
      rw [show cutInside b m s = m by unfold cutInside; rw [hg]]
      refine ih h hl' (fun s' e' x' hm' h1 h2 => ?_) hlo
      rcases List.mem_cons.mp (hin _ _ _ hm' h1 h2) with rfl | hs'
      · exact absurd hm' (get?_eq_none.mp hg _)
      · exact hs'
    | some v =>
      obtain ⟨e, x⟩ := v
      have hm := get?_eq_some.mp hg
      have hae := lt_of_le_of_lt has (h.1 _ _ _ hm)
      have ht : Trims a b m s e x (cutInside b m s) := by
        unfold cutInside
        rw [hg]
        refine h.trims_insert hm hsb fun s' e' x' => ?_
        rw [mem_erase]
        exact ⟨.inl, fun hor => hor.resolve_right (by omega)⟩
      obtain ⟨hap, hmem⟩ := ih (ht.apart h hm hab hsb hae) hl'
        (fun s' e' x' hm' h1 h2 => by
          rcases (ht _ _ _).mp hm' with ⟨hm', hne⟩ | hlt | hlt
          · exact (List.mem_cons.mp (hin _ _ _ hm' h1 h2)).resolve_left hne
          all_goals omega)
        fun s' e' x' hm' hs' => by
          rcases (ht _ _ _).mp hm' with ⟨hm', -⟩ | hlt | hlt
          · exact hlo _ _ _ hm' hs'
          all_goals omega
      exact ⟨hap, fun s' e' x' => (hmem _ _ _).trans (ht.parts hm hab hsb hae _ _ _)⟩

theorem cut_spec (hab : a < b) :
    Apart (m.cut a b) ∧ ∀ s e x, (s, e, x) ∈ m.cut a b ↔ Parts m a b s e x := by
  obtain ⟨hap, hlo, hpt⟩ := cutAcross_spec h hab
  obtain ⟨hcut, hmem⟩ := foldl_cutInside_spec hap hab
    (by
      rintro s hs
      obtain ⟨en, hen, rfl⟩ := List.mem_map.mp hs
      exact (mem_between.mp hen).2)
    (fun s e x hm h1 h2 => List.mem_map_of_mem (f := Prod.fst) (mem_between.mpr ⟨hm, h1, h2⟩)) hlo
  exact ⟨hcut, fun s e x => (hmem s e x).trans (hpt s e x)⟩

/-- What is left after a cut: of each span, the part before the range and the part after it. -/
theorem mem_cut (hab : a < b) {s e : ℕ} : (s, e, x) ∈ m.cut a b ↔ Parts m a b s e x :=
  (cut_spec h hab).2 s e x

theorem Apart.cut (hab : a < b) : Apart (m.cut a b) := (cut_spec h hab).1

/-- A cut removes the labels of the range and no others. -/
theorem lookup_cut (hab : a < b) (off : ℕ) :
    lookup (m.cut a b) off = if a ≤ off ∧ off < b then none else m.lookup off := by
  split_ifs with hoff
  · refine Option.eq_none_iff_forall_ne_some.mpr fun x hx => ?_
    obtain ⟨s, e, hm, hs, he⟩ := (lookup_eq_some (h.cut hab)).mp hx
    rcases (mem_cut h hab).mp hm with ⟨e0, -, -, rfl⟩ | ⟨s0, -, -, rfl⟩ <;> omega
  · refine Option.ext fun x => ?_
    rw [lookup_eq_some (h.cut hab), lookup_eq_some h]
    constructor
    · rintro ⟨s, e, hm, hs, he⟩
      rcases (mem_cut h hab).mp hm with ⟨e0, hm0, -, rfl⟩ | ⟨s0, hm0, -, rfl⟩
      · exact ⟨s, e0, hm0, hs, by omega⟩
      · exact ⟨s0, e, hm0, by omega, he⟩
    · rintro ⟨s, e, hm, hs, he⟩
      by_cases hlt : off < a
      · exact ⟨s, min e a, (mem_cut h hab).mpr (.inl ⟨e, hm, by omega, rfl⟩), hs, by omega⟩
      · exact ⟨max s b, e, (mem_cut h hab).mpr (.inr ⟨s, hm, by omega, rfl⟩), by omega, he⟩

theorem mem_put (hab : a < b) {s e : ℕ} {y : α} :
    (s, e, y) ∈ m.put a b x ↔ (s = a ∧ e = b ∧ y = x) ∨ (s, e, y) ∈ m.cut a b := by
  rw [put, if_neg (not_le.mpr hab), mem_insert]
  simp only [Prod.mk.injEq]
  refine or_congr_right ⟨fun hm => hm.1, fun hm => ⟨hm, ?_⟩⟩
  rcases (mem_cut h hab).mp hm with ⟨-, -, hs, -⟩ | ⟨s0, -, -, rfl⟩ <;> omega

theorem Apart.put (a b : ℕ) (x : α) : Apart (m.put a b x) := by
  by_cases hab : a < b
  swap
  · rwa [Spans.put, if_pos (not_lt.mp hab)]
  have hcut := h.cut hab
  -- no span left by the cut has an offset of the range
  have hout : ∀ s e y, (s, e, y) ∈ m.cut a b → e ≤ a ∨ b ≤ s := by
    intro s e y hm
    rcases (mem_cut h hab).mp hm with ⟨e0, -, -, rfl⟩ | ⟨s0, -, -, rfl⟩ <;> omega
  refine ⟨fun s e y hm => ?_, fun s e y s' e' y' hm hm' hlt => ?_⟩
  · rcases (mem_put h hab).mp hm with ⟨rfl, rfl, -⟩ | hm
    · exact hab
    · exact hcut.1 _ _ _ hm
  · rcases (mem_put h hab).mp hm with ⟨rfl, rfl, -⟩ | hm <;>
      rcases (mem_put h hab).mp hm' with ⟨rfl, rfl, -⟩ | hm'
    · omega
    · have := hcut.1 _ _ _ hm'
      rcases hout _ _ _ hm' with h' | h' <;> omega
    · rcases hout _ _ _ hm with h' | h' <;> omega
    · exact hcut.2 _ _ _ _ _ _ hm hm' hlt

/-- Writing replaces the labels of the range and no others. -/
theorem lookup_put (a b off : ℕ) (x : α) :
    lookup (m.put a b x) off = if a ≤ off ∧ off < b then some x else m.lookup off := by
  by_cases hab : a < b
  swap
  · rw [put, if_pos (not_lt.mp hab), if_neg (by omega)]
  split_ifs with hoff
  · exact (lookup_eq_some (h.put a b x)).mpr
      ⟨a, b, (mem_put h hab).mpr (.inl ⟨rfl, rfl, rfl⟩), hoff.1, hoff.2⟩
  · have hcut := lookup_cut h hab off
    rw [if_neg hoff] at hcut
    rw [← hcut]
    refine Option.ext fun y => ?_
    rw [lookup_eq_some (h.put a b x), lookup_eq_some (h.cut hab)]
    refine exists_congr fun s => exists_congr fun e => ?_
    rw [mem_put h hab]
    constructor
    · rintro ⟨⟨rfl, rfl, -⟩ | hm, hs, he⟩
      · exact absurd ⟨hs, he⟩ hoff
      · exact ⟨hm, hs, he⟩
    · rintro ⟨hm, hs, he⟩
      exact ⟨.inr hm, hs, he⟩

end Spans
