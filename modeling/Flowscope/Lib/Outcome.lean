import Mathlib.Tactic

/-!
# Computations that may fault

A state transformer that may fault is a function into `Except ε σ`. `Except.Sat x P E` says what
either outcome of `x` satisfies: `P` of its result, `E` of its fault. With `E` constantly true it is
partial correctness, with `E` constantly false it is total correctness, and anything between says
which faults are possible. `whileDo` is a `while` loop with a budget of iterations. A loop whose
guard still holds when the budget is spent reports the fault it was given, so no result is ever
taken from a loop that was cut short, and `whileDo_sat` shows from an invariant and a measure that
the budget suffices. `Except.Sim` relates two computations that fault alike.

`Except.runs` makes one step after the other, from a list of commands. A condition on each command
and the state that it meets (`Except.Along`) and a lemma about one step give what a whole run leads
to (`runs_sat`), and how two runs are related (`runs_sim`).
-/

universe u v

namespace Except

variable {ε : Type u} {α β γ δ : Type v}

/-- The result of `x` satisfies `P`, or its fault satisfies `E`. -/
def Sat (x : Except ε α) (P : α → Prop) (E : ε → Prop) : Prop :=
  match x with
  | .ok a => P a
  | .error e => E e

@[simp]
theorem sat_ok (a : α) (P : α → Prop) (E : ε → Prop) : (Except.ok a : Except ε α).Sat P E ↔ P a :=
  Iff.rfl

@[simp]
theorem sat_pure (a : α) (P : α → Prop) (E : ε → Prop) : (pure a : Except ε α).Sat P E ↔ P a :=
  Iff.rfl

@[simp]
theorem sat_error (e : ε) (P : α → Prop) (E : ε → Prop) :
    (Except.error e : Except ε α).Sat P E ↔ E e :=
  Iff.rfl

variable {x : Except ε α} {f : α → Except ε β} {P Q : α → Prop} {E : ε → Prop} {b : β}

/-- Sequencing: the continuation is judged at every result of the first computation. -/
theorem Sat.bind {P : β → Prop} (h : x.Sat (fun a => (f a).Sat P E) E) : (x >>= f).Sat P E := by
  cases x with
  | ok a => exact h
  | error e => exact h

/-- Sequencing where every fault is accepted: nothing need be known of the first computation. -/
theorem sat_bind_of_forall {P : β → Prop}
    (h : ∀ a, (f a).Sat P fun _ => True) (x : Except ε α) : (x >>= f).Sat P fun _ => True := by
  cases x with
  | ok a => exact h a
  | error e => trivial

/-- Sequencing where every fault is accepted, and it matters that the first computation has the
value that it has. -/
theorem sat_bind_of_ok {P : β → Prop}
    (h : ∀ a, x = .ok a → (f a).Sat P fun _ => True) : (x >>= f).Sat P fun _ => True := by
  cases x with
  | ok a => exact h a rfl
  | error e => trivial

/-- A computation for each element of a list: each result satisfies its own condition. -/
theorem sat_mapM {P : α → β → Prop} {l : List α}
    (h : ∀ a ∈ l, (f a).Sat (P a) E) : (l.mapM f).Sat (List.Forall₂ P l) E := by
  induction l with
  | nil => exact .nil
  | cons a l ih =>
    have hfr := h a List.mem_cons_self
    have hrs := ih fun b hb => h b (List.mem_cons_of_mem a hb)
    rw [List.mapM_cons]
    cases hfa : f a with
    | error e =>
      rw [hfa] at hfr
      exact hfr
    | ok b =>
      rw [hfa] at hfr
      cases hl : l.mapM f with
      | error e =>
        rw [hl] at hrs
        exact hrs
      | ok bs =>
        rw [hl] at hrs
        exact .cons hfr hrs

/-- A weaker postcondition and a weaker fault condition. -/
theorem Sat.mono {F : ε → Prop} (h : x.Sat P E)
    (hPQ : ∀ a, P a → Q a) (hEF : ∀ e, E e → F e) : x.Sat Q F := by
  cases x with
  | ok a => exact hPQ a h
  | error e => exact hEF e h

/-- A weaker postcondition. -/
theorem Sat.imp (h : x.Sat P E) (hPQ : ∀ a, P a → Q a) : x.Sat Q E :=
  h.mono hPQ fun _ he => he

/-- Two postconditions hold together. -/
theorem Sat.and (hP : x.Sat P E) (hQ : x.Sat Q E) : x.Sat (fun a => P a ∧ Q a) E := by
  cases x with
  | ok a => exact ⟨hP, hQ⟩
  | error e => exact hP

/-- What a result that was returned satisfies. -/
theorem Sat.of_ok (h : x.Sat P E) {a : α} (ha : x = .ok a) : P a := by
  subst ha
  exact h

/-- What a fault that was raised satisfies. -/
theorem Sat.of_error (h : x.Sat P E) {e : ε} (he : x = .error e) : E e := by
  subst he
  exact h

/-- A computation with no possible fault returns. -/
theorem Sat.exists_ok (h : x.Sat P fun _ => False) : ∃ a, x = .ok a ∧ P a := by
  cases x with
  | ok a => exact ⟨a, rfl, h⟩
  | error e => exact h.elim

/-- Applying a function to the result. -/
theorem Sat.map {f : α → β} {P : β → Prop}
    (h : x.Sat (fun a => P (f a)) E) : (x.map f).Sat P E := by
  cases x with
  | ok a => exact h
  | error e => exact h

/-- A sequence that returned: both parts returned. -/
theorem bind_eq_ok : (x >>= f) = .ok b ↔ ∃ a, x = .ok a ∧ f a = .ok b := by
  cases x with
  | ok a => simp [Bind.bind, Except.bind]
  | error e => simp [Bind.bind, Except.bind]

/-- A computation whose mapped result is known returned. -/
theorem map_eq_ok {f : α → β} (h : x.map f = .ok b) : ∃ a, x = .ok a ∧ f a = b := by
  cases x with
  | ok a => exact ⟨a, rfl, Except.ok.inj h⟩
  | error e => cases h

@[simp]
theorem ok_bind (a : α) (f : α → Except ε β) : (Except.ok a >>= f) = f a := rfl

@[simp]
theorem error_bind (e : ε) (f : α → Except ε β) : (Except.error e >>= f) = .error e := rfl

/-! ## Two computations that fault alike -/

/-- Both computations return, with related results, or both raise the same fault. -/
def Sim (x : Except ε α) (y : Except ε β) (R : α → β → Prop) : Prop :=
  match x, y with
  | .ok a, .ok b => R a b
  | .error e, .error e' => e = e'
  | _, _ => False

@[simp]
theorem sim_ok (a : α) (b : β) (R : α → β → Prop) :
    (Except.ok a : Except ε α).Sim (Except.ok b) R ↔ R a b :=
  Iff.rfl

@[simp]
theorem sim_error (e e' : ε) (R : α → β → Prop) :
    (Except.error e : Except ε α).Sim (Except.error e' : Except ε β) R ↔ e = e' :=
  Iff.rfl

/-- A computation and itself. -/
theorem Sat.sim {R : α → α → Prop} (h : x.Sat (fun a => R a a) E) : x.Sim x R := by
  cases x with
  | ok a => exact h
  | error e => rfl

/-- Computations whose results are equal are equal. -/
theorem Sim.eq {y : Except ε α} (h : x.Sim y fun a b => a = b) : x = y := by
  cases x <;> cases y
  · exact congrArg _ h
  · exact h.elim
  · exact h.elim
  · exact congrArg _ h

/-- A weaker relation of the results. -/
theorem Sim.imp {y : Except ε β} {R S : α → β → Prop} (h : x.Sim y R)
    (hRS : ∀ a b, R a b → S a b) : x.Sim y S := by
  cases x <;> cases y
  · exact h
  · exact h.elim
  · exact h.elim
  · exact hRS _ _ h

end Except

/-! ## Loops -/

section While

variable {ε : Type u} {σ τ : Type v}

/-- `while guard s { s = body s }` with a budget of iterations. A guard that still holds when the
budget is spent raises `diverged`. -/
def whileDo (diverged : ε) (guard : σ → Bool) (body : σ → Except ε σ) : ℕ → σ → Except ε σ
  | 0, s => if guard s then .error diverged else .ok s
  | n + 1, s => if guard s then body s >>= whileDo diverged guard body n else .ok s

variable {diverged : ε} {guard : σ → Bool} {body : σ → Except ε σ} {E : ε → Prop}

theorem whileDo_of_not (n : ℕ) (s : σ) (h : guard s = false) :
    whileDo diverged guard body n s = .ok s := by
  cases n <;> simp [whileDo, h]

/-- One iteration of a loop with budget left. -/
theorem whileDo_succ (n : ℕ) (s : σ) (h : guard s = true) :
    whileDo diverged guard body (n + 1) s = body s >>= whileDo diverged guard body n := by
  simp [whileDo, h]

/-- An invariant and a measure that every iteration decreases: the loop exits within a budget of
the measure, with the invariant, and with the guard false. -/
theorem whileDo_sat (I : σ → Prop) (μ : σ → ℕ)
    (hpos : ∀ s, I s → guard s = true → 0 < μ s)
    (hbd : ∀ s, I s → guard s = true → (body s).Sat (fun t => I t ∧ μ t < μ s) E)
    (n : ℕ) (s : σ) (hs : I s) (hn : μ s ≤ n) :
    (whileDo diverged guard body n s).Sat (fun t => I t ∧ guard t = false) E := by
  induction n generalizing s with
  | zero =>
    have hg : guard s = false := by
      by_contra h
      have := hpos s hs (by simpa using h)
      omega
    rw [whileDo_of_not 0 s hg]
    exact ⟨hs, hg⟩
  | succ n ih =>
    by_cases hg : guard s = true
    · rw [whileDo_succ n s hg]
      refine Except.Sat.bind ((hbd s hs hg).imp ?_)
      intro t ⟨ht, hlt⟩
      exact ih t ht (by omega)
    · have hg : guard s = false := by simpa using hg
      rw [whileDo_of_not _ s hg]
      exact ⟨hs, hg⟩

end While

/-! ## Runs -/

namespace Except

variable {ε : Type u} {κ : Type*} {σ τ : Type v}

def runs (step : κ → σ → Except ε σ) (cs : List κ) (s : σ) : Except ε σ :=
  cs.foldlM (fun s c => step c s) s

variable {step : κ → σ → Except ε σ} {step' : κ → τ → Except ε τ}

@[simp]
theorem runs_nil (s : σ) : runs step [] s = .ok s := rfl

theorem runs_cons (c : κ) (cs : List κ) (s : σ) :
    runs step (c :: cs) s = step c s >>= runs step cs := rfl

theorem runs_append (cs cs' : List κ) (s : σ) :
    runs step (cs ++ cs') s = runs step cs s >>= runs step cs' := by
  rw [runs, List.foldlM_append]
  rfl

/-- A condition holds of every command of a run and of the state that it meets. -/
def Along (step : κ → σ → Except ε σ) (P : κ → σ → Prop) : List κ → σ → Prop
  | [], _ => True
  | c :: cs, s => P c s ∧ ∀ s', step c s = .ok s' → Along step P cs s'

variable {cs : List κ} {P : κ → σ → Prop} {s : σ} {I : σ → Prop} {E : ε → Prop}

theorem Along.imp {Q : κ → σ → Prop} (hPQ : ∀ c s, P c s → Q c s)
    (h : Along step P cs s) : Along step Q cs s := by
  induction cs generalizing s with
  | nil => trivial
  | cons c cs ih => exact ⟨hPQ c s h.1, fun s' hs' => ih (h.2 s' hs')⟩

theorem Along.and {Q : κ → σ → Prop} (h : Along step P cs s)
    (h' : Along step Q cs s) : Along step (fun c s => P c s ∧ Q c s) cs s := by
  induction cs generalizing s with
  | nil => trivial
  | cons c cs ih => exact ⟨⟨h.1, h'.1⟩, fun s' hs' => ih (h.2 s' hs') (h'.2 s' hs')⟩

/-- A condition on the commands alone. -/
theorem Along.of_forall {P : κ → Prop} (h : ∀ c ∈ cs, P c) (s : σ) :
    Along step (fun c _ => P c) cs s := by
  induction cs generalizing s with
  | nil => trivial
  | cons c cs ih => exact ⟨h c (by simp), fun s' _ => ih (fun c hc => h c (by simp [hc])) s'⟩

instance decidableAlong {P : κ → σ → Prop} [∀ c s, Decidable (P c s)] :
    ∀ cs s, Decidable (Along step P cs s)
  | [], _ => isTrue trivial
  | c :: cs, s =>
    match h : step c s with
    | .error _ => decidable_of_iff (P c s) (by simp [Along, h])
    | .ok s' =>
      have := decidableAlong (P := P) cs s'
      decidable_of_iff (P c s ∧ Along step P cs s') (by simp [Along, h])

/-- What every step that meets a condition keeps, every run of such steps keeps. -/
theorem runs_sat (hstp : ∀ c s, P c s → I s → (step c s).Sat I E)
    (h : Along step P cs s) (hs : I s) : (runs step cs s).Sat I E := by
  induction cs generalizing s with
  | nil => exact hs
  | cons c cs ih =>
    rw [runs_cons]
    have hc := hstp c s h.1 hs
    cases hcl : step c s with
    | ok s' =>
      rw [hcl] at hc
      exact ih (h.2 s' hcl) hc
    | error e =>
      rw [hcl] at hc
      exact hc

/-- What every step keeps, a fold of such steps keeps. -/
theorem foldlM_sat {f : σ → κ → Except ε σ}
    (hf : ∀ s c, I s → (f s c).Sat I E) (cs : List κ) (hs : I s) : (cs.foldlM f s).Sat I E :=
  runs_sat (fun c s _ => hf s c)
    (Along.of_forall (fun _ _ => trivial) s) hs

/-- Two runs from related states, whose steps keep the states related. -/
theorem runs_sim {R : σ → τ → Prop}
    (hstp : ∀ c s t, P c s → R s t → (step c s).Sim (step' c t) R) {t : τ}
    (h : Along step P cs s) (hst : R s t) : (runs step cs s).Sim (runs step' cs t) R := by
  induction cs generalizing s t with
  | nil => exact hst
  | cons c cs ih =>
    rw [runs_cons, runs_cons]
    have hc := hstp c s t h.1 hst
    revert hc
    cases hs : step c s with
    | ok s' =>
      cases ht : step' c t with
      | ok t' => exact fun hR => ih (h.2 s' hs) hR
      | error e => exact False.elim
    | error e =>
      cases ht : step' c t with
      | ok t' => exact False.elim
      | error e' => exact id

end Except
