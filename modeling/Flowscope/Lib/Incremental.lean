import Flowscope.Lib.Outcome

/-!
# Incremental readers

A reader takes what it can from the front of a buffer, one turn after another, until it needs more
input or gives up. `Reader.run` makes these turns. Input is added to the buffer with `more`.

A reader may be given its input in pieces, and it should not matter how the input was cut. That is so
if each turn is made alike when there is more behind what it takes (`Reader.StableAt`): then running,
adding input and running again is the same as adding the input first (`Reader.run_more`).
`Reader.run_map` is for what a reader carries along without looking at it.
-/

universe u v w

/-- What a reader does next. -/
inductive Turn (σ : Type u) (ρ : Type v) where
  /-- It needs more input. -/
  | wait
  /-- It has taken something. -/
  | next (s : σ)
  /-- It gives up. -/
  | stop (r : ρ)

/-- Apply functions to what a turn leads to. -/
def Turn.map {σ : Type u} {ρ : Type v} (f : σ → σ) (g : ρ → ρ) : Turn σ ρ → Turn σ ρ
  | .wait => .wait
  | .next s => .next (f s)
  | .stop r => .stop (g r)

/-- What a turn leads to when there is more input: the same, with the input behind it. A reader that
waited may do anything. -/
def Turn.Extends {σ : Type u} {ρ : Type v} (f : σ → σ) : Turn σ ρ → Turn σ ρ → Prop
  | .wait, _ => True
  | .next s, t => t = .next (f s)
  | .stop r, t => t = .stop r

/-- A reader with states `σ` over input of type `α`, that gives up with a result in `ρ`. -/
structure Reader (σ : Type u) (ρ : Type v) (α : Type w) where
  turn : σ → Turn σ ρ
  more : σ → List α → σ
  more_nil : ∀ s, more s [] = s
  more_append : ∀ s x y, more s (x ++ y) = more (more s x) y
  /-- What is left to take. -/
  size : σ → ℕ
  size_lt : ∀ s s', turn s = .next s' → size s' < size s

namespace Reader

variable {σ : Type u} {ρ : Type v} {α : Type w} (R : Reader σ ρ α)

/-- Take turns until the reader waits or gives up. -/
def run (s : σ) : Except ρ σ :=
  match _h : R.turn s with
  | .wait => .ok s
  | .stop r => .error r
  | .next s' => run s'
termination_by R.size s
decreasing_by exact R.size_lt s s' _h

variable {R} {s s' : σ} {r : ρ} {x y : List α}

theorem run_of_wait (h : R.turn s = .wait) : R.run s = .ok s := by
  rw [run]
  split
  · rfl
  · next heq => rw [h] at heq; cases heq
  · next heq => rw [h] at heq; cases heq

theorem run_of_stop (h : R.turn s = .stop r) : R.run s = .error r := by
  rw [run]
  split
  · next heq => rw [h] at heq; cases heq
  · next heq => rw [h] at heq; cases heq; rfl
  · next heq => rw [h] at heq; cases heq

theorem run_of_next (h : R.turn s = .next s') : R.run s = R.run s' := by
  rw [run]
  split
  · next heq => rw [h] at heq; cases heq
  · next heq => rw [h] at heq; cases heq
  · next heq => rw [h] at heq; cases heq; rfl

variable (R) in
/-- An induction over the turns of a reader. -/
theorem turn_induction {P : σ → Prop} (wait : ∀ s, R.turn s = .wait → P s)
    (stop : ∀ s r, R.turn s = .stop r → P s)
    (next : ∀ s s', R.turn s = .next s' → P s' → P s) (s : σ) : P s := by
  induction hn : R.size s using Nat.strong_induction_on generalizing s with
  | _ n ih =>
    cases hturn : R.turn s with
    | wait => exact wait s hturn
    | stop r => exact stop s r hturn
    | next s' => exact next s s' hturn (ih (R.size s') (hn ▸ R.size_lt s s' hturn) s' rfl)

/-- What holds at the start and is kept by every turn holds where the reader waits. -/
theorem run_sat {P : σ → Prop} {E : ρ → Prop} (hnx : ∀ s s', P s → R.turn s = .next s' → P s')
    (hsp : ∀ s r, P s → R.turn s = .stop r → E r) (hs : P s) :
    (R.run s).Sat (fun s' => P s' ∧ R.turn s' = .wait) E := by
  induction s using R.turn_induction with
  | wait s hturn =>
    rw [run_of_wait hturn]
    exact ⟨hs, hturn⟩
  | stop s r hturn =>
    rw [run_of_stop hturn]
    exact hsp s r hs hturn
  | next s s' hturn ih =>
    rw [run_of_next hturn]
    exact ih (hnx s s' hs hturn)

/-- The states of a run. -/
inductive Visits (R : Reader σ ρ α) (s : σ) : σ → Prop
  | refl : Visits R s s
  | tail {t t' : σ} : Visits R s t → R.turn t = .next t' → Visits R s t'

theorem Visits.head {t : σ} (hturn : R.turn s = .next s') (h : R.Visits s' t) : R.Visits s t := by
  induction h with
  | refl => exact .tail .refl hturn
  | tail _ hstp ih => exact .tail ih hstp

theorem Visits.trans {t u : σ} (h : R.Visits s t) (h' : R.Visits t u) : R.Visits s u := by
  induction h' with
  | refl => exact h
  | tail _ hstp ih => exact .tail ih hstp

/-- A run visits the state that it starts in, and then those of the run after its first turn. -/
theorem Visits.cases_head {t : σ} (h : R.Visits s t) :
    t = s ∨ ∃ s', R.turn s = .next s' ∧ R.Visits s' t := by
  induction h with
  | refl => exact .inl rfl
  | tail _ hstp ih =>
    rcases ih with rfl | ⟨s', hturn, hvs⟩
    · exact .inr ⟨_, hstp, .refl⟩
    · exact .inr ⟨s', hturn, .tail hvs hstp⟩

/-- A run that returns goes through the state that it returns. -/
theorem visits_of_run (h : R.run s = .ok s') : R.Visits s s' ∧ R.turn s' = .wait := by
  induction s using R.turn_induction with
  | wait s hturn =>
    rw [run_of_wait hturn] at h
    cases h
    exact ⟨.refl, hturn⟩
  | stop s r hturn =>
    rw [run_of_stop hturn] at h
    cases h
  | next s s₁ hturn ih =>
    rw [run_of_next hturn] at h
    obtain ⟨hvs, hwt⟩ := ih h
    exact ⟨hvs.head hturn, hwt⟩

/-- Some turns, where what lies between the first state and the last satisfies `P`. -/
inductive Passes (R : Reader σ ρ α) (P : σ → Prop) : σ → σ → Prop
  | one {s s' : σ} (hturn : R.turn s = .next s') : Passes R P s s'
  | cons {s s₁ s' : σ} (hturn : R.turn s = .next s₁) (hP : P s₁) (h : Passes R P s₁ s') :
      Passes R P s s'

theorem Passes.run {P : σ → Prop} (h : R.Passes P s s') : R.run s = R.run s' := by
  induction h with
  | one hturn => exact run_of_next hturn
  | cons hturn _ _ ih => exact (run_of_next hturn).trans ih

/-- What a run visits that makes such turns. -/
theorem Passes.visits {P : σ → Prop} {t : σ} (h : R.Passes P s s') (ht : R.Visits s t) :
    t = s ∨ P t ∨ R.Visits s' t := by
  induction h with
  | one hturn =>
    rcases ht.cases_head with rfl | ⟨s₁, htr', hvs⟩
    · exact .inl rfl
    · rw [hturn] at htr'
      cases htr'
      exact .inr (.inr hvs)
  | cons hturn hP _ ih =>
    rcases ht.cases_head with rfl | ⟨s₁, htr', hvs⟩
    · exact .inl rfl
    · rw [hturn] at htr'
      cases htr'
      rcases ih hvs with rfl | h
      · exact .inr (.inl hP)
      · exact .inr h

/-! ## Input in pieces -/

/-- The turn at `s` is made alike with `x` behind the input. -/
def StableAt (R : Reader σ ρ α) (s : σ) (x : List α) : Prop :=
  (R.turn s).Extends (R.more · x) (R.turn (R.more s x))

/-- What a run visits, it visits with more input behind it, if each turn is made alike there. -/
theorem Visits.more {t : σ}
    (hsl : ∀ t, R.Visits s t → R.Visits (R.more s x) (R.more t x) → R.StableAt t x)
    (h : R.Visits s t) : R.Visits (R.more s x) (R.more t x) := by
  induction h with
  | refl => exact .refl
  | tail ht hturn ih =>
    have hmr := hsl _ ht ih
    rw [StableAt, hturn] at hmr
    exact .tail ih hmr

/-- To run, add input and run again is to add the input first. -/
theorem run_more
    (hsl : ∀ t, R.Visits s t → R.Visits (R.more s x) (R.more t x) → R.StableAt t x) :
    R.run (R.more s x) = R.run s >>= fun s' => R.run (R.more s' x) := by
  induction s using R.turn_induction with
  | wait s hturn => rw [run_of_wait hturn]; rfl
  | stop s r hturn =>
    have hmr := hsl s .refl .refl
    rw [StableAt, hturn] at hmr
    rw [run_of_stop hturn, run_of_stop hmr]
    rfl
  | next s s' hturn ih =>
    have hmr := hsl s .refl .refl
    rw [StableAt, hturn] at hmr
    rw [run_of_next hturn, run_of_next hmr]
    exact ih fun t ht ht' => hsl t (ht.head hturn) (ht'.head hmr)

/-! ## What is carried along -/

/-- A change of the state that commutes with every turn commutes with a run. -/
theorem run_map {f : σ → σ} {g : ρ → ρ} (h : ∀ s, R.turn (f s) = (R.turn s).map f g) (s : σ) :
    R.run (f s) = ((R.run s).map f).mapError g := by
  induction s using R.turn_induction with
  | wait s hturn =>
    have hf := h s
    rw [hturn] at hf
    rw [run_of_wait hturn, run_of_wait hf]
    rfl
  | stop s r hturn =>
    have hf := h s
    rw [hturn] at hf
    rw [run_of_stop hturn, run_of_stop hf]
    rfl
  | next s s' hturn ih =>
    have hf := h s
    rw [hturn] at hf
    rw [run_of_next hturn, run_of_next hf, ih]

end Reader
