import Flowscope.Lib.OrdMap
import Mathlib.Data.List.DropRight

/-!
# Values in order of time

A series is a list of times and values in strictly increasing order of the times. A value is looked up
by its time; an update changes the value of a time, or inserts one in its place. Two series with the
same value at every time are equal (`Series.ext`), so that what is true of all lookups of a series is
all there is to know of it.
-/

universe u v w

namespace Series

open List Option

variable {τ : Type u} {B : Type v} [LinearOrder τ] {l l' : List (τ × B)} {t t' : τ} {b : B}

/-- The times are strictly increasing. -/
def Ordered (l : List (τ × B)) : Prop := l.Pairwise fun a b => a.1 < b.1

/-- The value of a time. -/
def find : List (τ × B) → τ → Option B
  | [], _ => none
  | e :: l, t => if e.1 = t then some e.2 else find l t

/-- Change the value of a time. A time that has none gets its place, and is changed from `e`. -/
def upsert (e : B) (f : B → B) (t : τ) : List (τ × B) → List (τ × B)
  | [] => [(t, f e)]
  | a :: l =>
    if a.1 < t then a :: upsert e f t l
    else if a.1 = t then (t, f a.2) :: l
    else (t, f e) :: a :: l

theorem mem_of_find (h : find l t = some b) : (t, b) ∈ l := by
  induction l with
  | nil => exact nomatch h
  | cons e l ih =>
    rw [find] at h
    split_ifs at h with he
    · cases h
      rw [← he]
      exact mem_cons_self
    · exact mem_cons_of_mem e (ih h)

theorem find_of_mem (hl : Ordered l) (h : (t, b) ∈ l) : find l t = some b := by
  induction l with
  | nil => exact nomatch h
  | cons e l ih =>
    obtain ⟨hfr, hrs⟩ := pairwise_cons.mp hl
    rw [find]
    rcases mem_cons.mp h with rfl | hmem
    · rw [if_pos rfl]
    · rw [if_neg (hfr _ hmem).ne]
      exact ih hrs hmem

theorem find_eq_none_iff : find l t = none ↔ ∀ e ∈ l, e.1 ≠ t := by
  induction l with
  | nil => exact ⟨fun _ => nofun, fun _ => rfl⟩
  | cons e l ih =>
    rw [find, forall_mem_cons]
    split_ifs with he
    · exact ⟨nofun, fun h => absurd he h.1⟩
    · rw [ih]
      exact ⟨fun h => ⟨he, h⟩, fun h => h.2⟩

/-- Before the first time there is nothing. -/
theorem find_of_lt (h : ∀ e ∈ l, t < e.1) : find l t = none :=
  find_eq_none_iff.mpr fun e he => (h e he).ne'

/-- A series is known by its values. -/
theorem ext (hl : Ordered l) (hl' : Ordered l') (h : ∀ t, find l t = find l' t) : l = l' := by
  refine OrdMap.eq_of_sorted hl hl' fun e => ⟨fun he => ?_, fun he => ?_⟩
  · exact mem_of_find ((h e.1).symm.trans (find_of_mem hl he))
  · exact mem_of_find ((h e.1).trans (find_of_mem hl' he))

theorem mem_upsert {e : B} {f : B → B} {a : τ × B} (h : a ∈ upsert e f t l) : a.1 = t ∨ a ∈ l := by
  induction l with
  | nil =>
    rw [upsert, mem_singleton] at h
    exact .inl (congrArg Prod.fst h)
  | cons c l ih =>
    rw [upsert] at h
    split_ifs at h with hlt heq
    · rcases mem_cons.mp h with rfl | hmem
      · exact .inr mem_cons_self
      · exact (ih hmem).imp_right (mem_cons_of_mem c)
    · rcases mem_cons.mp h with rfl | hmem
      · exact .inl rfl
      · exact .inr (mem_cons_of_mem c hmem)
    · rcases mem_cons.mp h with rfl | hmem
      · exact .inl rfl
      · exact .inr hmem

theorem ordered_upsert (hl : Ordered l) (e : B) (f : B → B) (t : τ) : Ordered (upsert e f t l) := by
  induction l with
  | nil => exact pairwise_singleton _ _
  | cons a l ih =>
    obtain ⟨hfr, hrs⟩ := pairwise_cons.mp hl
    rw [upsert]
    split_ifs with hlt heq
    · refine pairwise_cons.mpr ⟨fun c hc => ?_, ih hrs⟩
      rcases mem_upsert hc with hc | hc
      · rw [hc]
        exact hlt
      · exact hfr c hc
    · exact pairwise_cons.mpr ⟨fun c hc => heq ▸ hfr c hc, hrs⟩
    · have hta : t < a.1 := lt_of_le_of_ne (not_lt.mp hlt) fun h => heq h.symm
      refine pairwise_cons.mpr ⟨fun c hc => ?_, hl⟩
      rcases mem_cons.mp hc with rfl | hc
      · exact hta
      · exact hta.trans (hfr c hc)

theorem find_upsert (hl : Ordered l) (e : B) (f : B → B) (t t' : τ) :
    find (upsert e f t l) t' = if t' = t then some (f ((find l t).getD e)) else find l t' := by
  induction l with
  | nil =>
    by_cases h : t' = t
    · simp [upsert, find, h]
    · simp [upsert, find, h, Ne.symm h]
  | cons a l ih =>
    obtain ⟨hfr, hrs⟩ := pairwise_cons.mp hl
    rw [upsert]
    by_cases hlt : a.1 < t
    · rw [if_pos hlt, find, ih hrs]
      by_cases h : t' = t
      · subst h
        rw [if_neg hlt.ne, find, if_neg hlt.ne]
      · rw [if_neg h, if_neg h, find]
    rw [if_neg hlt]
    by_cases heq : a.1 = t
    · subst heq
      rw [if_pos rfl, find]
      by_cases h : t' = a.1
      · subst h
        rw [if_pos rfl, if_pos rfl, find, if_pos rfl, getD_some]
      · rw [if_neg (Ne.symm h), if_neg h, find, if_neg (Ne.symm h)]
    · rw [if_neg heq, find]
      by_cases h : t' = t
      · subst h
        have hnn : find (a :: l) t' = none := by
          have hta : t' < a.1 := lt_of_le_of_ne (not_lt.mp hlt) fun h => heq h.symm
          apply find_of_lt
          intro c hc
          rcases mem_cons.mp hc with rfl | hc
          · exact hta
          · exact hta.trans (hfr c hc)
        rw [if_pos rfl, if_pos rfl, hnn, getD_none]
      · rw [if_neg (Ne.symm h), if_neg h]

/-- An update at a time that comes after a part of the series leaves that part as it is. -/
theorem upsert_append (h : ∀ a ∈ l, a.1 < t) (e : B) (f : B → B) (l' : List (τ × B)) :
    upsert e f t (l ++ l') = l ++ upsert e f t l' := by
  induction l with
  | nil => rfl
  | cons a l ih =>
    rw [cons_append, upsert, if_pos (h a mem_cons_self),
      ih fun b hb => h b (mem_cons_of_mem a hb), cons_append]

/-- Update the series at every time of another one, by the value that that has there. -/
def upsertAll {C : Type w} (e : B) (f : C → B → B) (l : List (τ × B)) (cs : List (τ × C)) :
    List (τ × B) :=
  cs.foldl (fun l c => upsert e (f c.2) c.1 l) l

variable {C : Type w}

theorem ordered_upsertAll (hl : Ordered l) (e : B) (f : C → B → B) (cs : List (τ × C)) :
    Ordered (upsertAll e f l cs) := by
  induction cs generalizing l with
  | nil => exact hl
  | cons c cs ih => exact ih (ordered_upsert hl e (f c.2) c.1)

theorem find_upsertAll (hl : Ordered l) (e : B) (f : C → B → B) {cs : List (τ × C)}
    (hcs : Ordered cs) (t : τ) :
    find (upsertAll e f l cs) t = match find cs t with
      | some c => some (f c ((find l t).getD e))
      | none => find l t := by
  induction cs generalizing l with
  | nil => rfl
  | cons c cs ih =>
    obtain ⟨hfr, hrs⟩ := pairwise_cons.mp hcs
    have hstp : upsertAll e f l (c :: cs) = upsertAll e f (upsert e (f c.2) c.1 l) cs := rfl
    rw [hstp, ih (ordered_upsert hl e (f c.2) c.1) hrs, find_upsert hl, find]
    by_cases h : c.1 = t
    · subst h
      rw [if_pos rfl, if_pos rfl, find_of_lt hfr]
    · rw [if_neg h, if_neg (Ne.symm h)]

theorem find_map (g : B → C) (l : List (τ × B)) (t : τ) :
    find (l.map fun e => (e.1, g e.2)) t = (find l t).map g := by
  induction l with
  | nil => rfl
  | cons e l ih =>
    rw [map_cons, find, find, ih]
    split_ifs <;> rfl

/-- An update of values that are then mapped. -/
theorem map_upsert (g : B → C) (f : B → B) (f' : C → C) (hf : ∀ b, g (f b) = f' (g b))
    (e : B) (t : τ) (l : List (τ × B)) :
    (upsert e f t l).map (fun a => (a.1, g a.2)) = upsert (g e) f' t (l.map fun a => (a.1, g a.2)) := by
  induction l with
  | nil =>
    rw [upsert, map_singleton, map_nil, upsert, hf]
  | cons a l ih =>
    rw [upsert, map_cons, upsert]
    split_ifs
    · rw [map_cons, ih]
    · rw [map_cons, hf]
    · rw [map_cons, map_cons, hf]

theorem ordered_map (hl : Ordered l) (g : B → C) : Ordered (l.map fun e => (e.1, g e.2)) :=
  pairwise_map.mpr hl

theorem find_filter (p : τ → Bool) (l : List (τ × B)) (t : τ) :
    find (l.filter fun e => p e.1) t = if p t then find l t else none := by
  induction l with
  | nil => simp [find]
  | cons e l ih =>
    rw [filter_cons]
    by_cases he : e.1 = t
    · subst he
      split_ifs with hp
      · rw [find, if_pos rfl, find, if_pos rfl]
      · rw [ih, if_neg hp]
    · rw [find, if_neg he, ← ih]
      split_ifs
      · rw [find, if_neg he]
      · rfl

theorem ordered_filter (hl : Ordered l) (p : τ × B → Bool) : Ordered (l.filter p) := hl.filter p

/-- Dropping the front up to a time leaves what is not before it. -/
theorem dropWhile_lt (hl : Ordered l) (c : τ) :
    (l.dropWhile fun e => e.1 < c) = l.filter fun e => c ≤ e.1 := by
  induction l with
  | nil => rfl
  | cons e l ih =>
    obtain ⟨hfr, hrs⟩ := pairwise_cons.mp hl
    rw [dropWhile_cons, filter_cons]
    by_cases he : e.1 < c
    · rw [if_pos (decide_eq_true he), if_neg (by simpa using he)]
      exact ih hrs
    · have hall : l.filter (fun e => c ≤ e.1) = l := by
        rw [filter_eq_self]
        intro a ha
        exact decide_eq_true ((not_lt.mp he).trans (hfr a ha).le)
      rw [if_neg (by simpa using he), if_pos (by simpa using he), hall]

/-! ## What a series has gathered

Each of some observations belongs to a time and has a value; the values of one time are gathered by an
operation that is commutative and associative. An observation also has a limit, before which values may
be forgotten when it comes. -/

section Gather

variable {α : Type w} (start limit : α → τ) (value : α → B) (op : B → B → B) [Std.Commutative op]
  [Std.Associative op]

/-- The values of the observations of a time. -/
def gather (m : Multiset α) (t : τ) : Option B :=
  (m.map fun x => if start x = t then some (value x) else none).fold (Option.merge op) none

variable {start limit value op} {m m' : Multiset α}

theorem gather_add :
    gather start value op (m + m') t =
      merge op (gather start value op m t) (gather start value op m' t) := by
  rw [gather, Multiset.map_add]
  exact Multiset.fold_add (merge op) none none _ _

theorem gather_cons (x : α) :
    gather start value op (x ::ₘ m) t =
      merge op (gather start value op m t) (if start x = t then some (value x) else none) := by
  rw [gather, Multiset.map_cons, Multiset.fold_cons_right]
  rfl

variable (op) in
/-- A value was gathered from another one, and maybe more. -/
def Contains (b c : B) : Prop := b = c ∨ ∃ d, b = op d c

omit [Std.Commutative op] in
theorem Contains.op_left {c : B} (h : Contains op b c) (d : B) : Contains op (op d b) c := by
  rcases h with rfl | ⟨d', rfl⟩
  · exact .inr ⟨d, rfl⟩
  · exact .inr ⟨op d d', (Std.Associative.assoc _ _ _).symm⟩

theorem Contains.op_right {c : B} (h : Contains op b c) (d : B) : Contains op (op b d) c :=
  (Std.Commutative.comm b d : op b d = op d b) ▸ h.op_left d

variable (start limit value op) in
/-- The series has gathered the observations, but for times that are before the limit of one of them. -/
structure Gathers (l : List (τ × B)) (m : Multiset α) : Prop where
  ordered : Ordered l
  /-- Each time is that of an observation, whose value is in the value of the time. -/
  starts : ∀ e ∈ l, ∃ x ∈ m, start x = e.1 ∧ Contains op e.2 (value x)
  /-- Nothing is missing that is not before a limit. -/
  whole : ∀ t, (∀ x ∈ m, limit x ≤ t) → find l t = gather start value op m t
  nonempty : m ≠ 0 → l ≠ []

theorem gathers_nil : Gathers start limit value op [] 0 where
  ordered := .nil
  starts := nofun
  whole _ _ := rfl
  nonempty h := absurd rfl h

theorem upsert_ne_nil (e : B) (f : B → B) (t : τ) (l : List (τ × B)) : upsert e f t l ≠ [] := by
  cases l with
  | nil => exact nofun
  | cons a l =>
    rw [upsert]
    split_ifs <;> exact nofun

variable (h : Gathers start limit value op l m)
include h

/-- One more observation: what is before its limit is forgotten, and its value is added to its time. -/
theorem Gathers.observe {x : α} (hl : l' = l.filter fun e => limit x ≤ e.1) {e : B} {f : B → B}
    (hf : ∀ b, find l' (start x) = some b → f b = op b (value x)) (he : f e = value x) :
    Gathers start limit value op (upsert e f (start x) l') (x ::ₘ m) := by
  have hl' : Ordered l' := hl ▸ ordered_filter h.ordered _
  refine ⟨ordered_upsert hl' e f (start x), ?_, ?_, fun _ => upsert_ne_nil e f (start x) l'⟩
  · intro a ha
    have hfd := find_of_mem (ordered_upsert hl' e f (start x)) ha
    rw [find_upsert hl'] at hfd
    split_ifs at hfd with hsr
    · refine ⟨x, Multiset.mem_cons_self x m, hsr.symm, ?_⟩
      rw [← some.inj hfd]
      cases hold : find l' (start x) with
      | none => exact .inl (by rw [getD_none, he])
      | some b => exact .inr ⟨b, by rw [getD_some, hf b hold]⟩
    · have hmem := mem_of_find hfd
      rw [hl] at hmem
      obtain ⟨y, hy, hsr⟩ := h.starts a (mem_of_mem_filter hmem)
      exact ⟨y, Multiset.mem_cons_of_mem hy, hsr⟩
  · intro t ht
    have hwh : find l' t = gather start value op m t := by
      have hx : limit x ≤ t := ht x (Multiset.mem_cons_self x m)
      rw [hl, find_filter (fun s => limit x ≤ s), if_pos (decide_eq_true hx)]
      exact h.whole t fun y hy => ht y (Multiset.mem_cons_of_mem hy)
    rw [find_upsert hl', gather_cons, ← hwh]
    by_cases hsr : start x = t
    · subst hsr
      rw [if_pos rfl, if_pos rfl]
      cases hfd : find l' (start x) with
      | none =>
        rw [getD_none, he]
        rfl
      | some b =>
        rw [getD_some, hf b hfd]
        rfl
    · rw [if_neg (Ne.symm hsr), if_neg hsr, merge_none_right]

theorem Gathers.eq_nil_iff : l = [] ↔ m = 0 := by
  constructor
  · intro hnil
    by_contra hm
    exact h.nonempty hm hnil
  · rintro rfl
    rw [eq_nil_iff_forall_not_mem]
    intro e he
    obtain ⟨x, hx, -⟩ := h.starts e he
    exact Multiset.notMem_zero x hx

/-- Two series whose values are put together. -/
theorem Gathers.merge (h' : Gathers start limit value op l' m')
    {l'' : List (τ × B)} (hl : Ordered l'')
    (hfd : ∀ t, find l'' t = Option.merge op (find l t) (find l' t)) :
    Gathers start limit value op l'' (m + m') := by
  refine ⟨hl, ?_, ?_, ?_⟩
  · intro e he
    have hmr := hfd e.1
    rw [find_of_mem hl he] at hmr
    cases hb : find l e.1 with
    | some b =>
      obtain ⟨x, hx, hsr, hco⟩ := h.starts _ (mem_of_find hb)
      refine ⟨x, Multiset.mem_add.mpr (.inl hx), hsr, ?_⟩
      cases hb' : find l' e.1 with
      | none =>
        rw [hb, hb'] at hmr
        exact Option.some.inj hmr ▸ hco
      | some b' =>
        rw [hb, hb'] at hmr
        exact Option.some.inj hmr ▸ hco.op_right b'
    | none =>
      rw [hb, Option.merge_none_left] at hmr
      obtain ⟨x, hx, hsr⟩ := h'.starts _ (mem_of_find hmr.symm)
      exact ⟨x, Multiset.mem_add.mpr (.inr hx), hsr⟩
  · intro t ht
    rw [hfd, gather_add, h.whole t fun x hx => ht x (Multiset.mem_add.mpr (.inl hx)),
      h'.whole t fun x hx => ht x (Multiset.mem_add.mpr (.inr hx))]
  · rintro hne rfl
    -- what either of the two has at a time is there
    have hnn : ∀ t, find l t = none ∧ find l' t = none := fun t => merge_eq_none_iff.mp (hfd t).symm
    have hnil : ∀ {l : List (τ × B)}, (∀ t, find l t = none) → l = [] := fun hl =>
      eq_nil_iff_forall_not_mem.mpr fun e he => find_eq_none_iff.mp (hl e.1) e he rfl
    have hm : m = 0 := h.eq_nil_iff.mp (hnil fun t => (hnn t).1)
    have hm' : m' = 0 := h'.eq_nil_iff.mp (hnil fun t => (hnn t).2)
    exact hne (by rw [hm, hm', add_zero])

/-- What is true of the value of each observation is true of every value, if more values do not change
it. -/
theorem Gathers.forall_value {P : B → Prop}
    (hvl : ∀ x, P (value x)) (hop : ∀ d b, P b → P (op d b)) : ∀ e ∈ l, P e.2 := by
  intro e he
  obtain ⟨x, -, -, heq | ⟨d, heq⟩⟩ := h.starts e he
  · exact heq ▸ hvl x
  · exact heq ▸ hop d _ (hvl x)

/-- Two series that have gathered the same observations agree from all limits on. -/
theorem Gathers.filter_eq
    (h' : Gathers start limit value op l' m) {c : τ} (hc : ∀ x ∈ m, limit x ≤ c) :
    (l.filter fun e => c ≤ e.1) = l'.filter fun e => c ≤ e.1 := by
  apply ext (ordered_filter h.ordered _) (ordered_filter h'.ordered _)
  intro t
  rw [find_filter (fun s => c ≤ s), find_filter (fun s => c ≤ s)]
  by_cases ht : c ≤ t
  · rw [if_pos (decide_eq_true ht), if_pos (decide_eq_true ht),
      h.whole t fun x hx => (hc x hx).trans ht, h'.whole t fun x hx => (hc x hx).trans ht]
  · rw [if_neg (by simpa using ht), if_neg (by simpa using ht)]

end Gather

end Series
