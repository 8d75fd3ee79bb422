import Mathlib.Tactic

/-!
# Readers

A reader takes symbols off the front of a list and gives a value, or fails. `Gives p written a` says
that the reader `p` takes `written` off any list that starts with it, no more and no less, and gives
`a`. It is kept by what readers are built from, so that a written value is read back part by part.
-/

/-- A reader. -/
abbrev Get (σ α : Type) : Type := StateT (List σ) Option α

namespace Get

open List

variable {σ α β ι : Type}

/-- The next `n` symbols. -/
def take (n : ℕ) : Get σ (List σ) := fun input =>
  if n ≤ input.length then some (input.take n, input.drop n) else none

/-- Read `n` values. -/
def times (p : Get σ α) : ℕ → Get σ (List α)
  | 0 => pure []
  | n + 1 => do
    let a ← p
    let as ← times p n
    return a :: as

/-- Read until nothing is left, at most `n` times. -/
def upTo (p : Get σ α) : ℕ → List σ → Option (List α)
  | _, [] => some []
  | 0, _ :: _ => none
  | n + 1, s :: input =>
    match p (s :: input) with
    | some (a, rest) => (upTo p n rest).map (a :: ·)
    | none => none

/-- Read until nothing is left. A reader that takes nothing fails. -/
def all (p : Get σ α) (input : List σ) : Option (List α) := upTo p input.length input

/-- The reader takes just this off the front, and gives `a`. -/
def Gives (p : Get σ α) (written : List σ) (a : α) : Prop :=
  ∀ rest, p (written ++ rest) = some (a, rest)

theorem gives_pure (a : α) : Gives (pure a : Get σ α) [] a := fun _ => rfl

variable {p : Get σ α} {ws : List (List σ)} {as : List α} {a : α}

theorem Gives.bind {q : α → Get σ β} {w w' : List σ} {b : β}
    (h : Gives p w a) (h' : Gives (q a) w' b) : Gives (p >>= q) (w ++ w') b := by
  intro rest
  have hfr : p (w ++ (w' ++ rest)) = some (a, w' ++ rest) := h (w' ++ rest)
  have hbn : (p >>= q) (w ++ (w' ++ rest)) = (q a) (w' ++ rest) := by
    change (p (w ++ (w' ++ rest))).bind (fun r => q r.1 r.2) = _
    rw [hfr]
    rfl
  rw [append_assoc, hbn]
  exact h' rest

/-- What comes last takes nothing more. -/
theorem Gives.map {f : α → β} {w : List σ} (h : Gives p w a) :
    Gives (p >>= fun a => pure (f a)) w (f a) := by
  have hbn := h.bind (q := fun a => pure (f a)) (gives_pure (f a))
  rwa [append_nil] at hbn

theorem gives_take (w : List σ) : Gives (take w.length) w w := by
  intro rest
  have hle : w.length ≤ (w ++ rest).length := by
    rw [length_append]
    exact Nat.le_add_right _ _
  rw [take, if_pos hle, take_left, drop_left]

theorem Gives.times
    (h : Forall₂ (Gives p) ws as) : Gives (times p as.length) ws.flatten as := by
  induction h with
  | nil => exact gives_pure []
  | cons hfr _ ih => exact hfr.bind ih.map

/-- A reader for each element of a list. -/
theorem Gives.cons {p : ι → Get σ α} {i : ι} {is : List ι} {w ws : List σ} {a : α} {as : List α}
    (h : Gives (p i) w a) (h' : Gives (is.mapM p) ws as) :
    Gives ((i :: is).mapM p) (w ++ ws) (a :: as) := by
  rw [mapM_cons]
  exact h.bind h'.map

/-- Values that were written one after the other, each with at least one symbol, are all read. -/
theorem all_flatten
    (h : Forall₂ (fun w a => Gives p w a ∧ w ≠ []) ws as) : all p ws.flatten = some as := by
  have hup : ∀ n, ws.flatten.length ≤ n → upTo p n ws.flatten = some as := by
    induction h with
    | nil =>
      intro n _
      cases n <;> rfl
    | @cons w a ws as hfr _ ih =>
      intro n hn
      obtain ⟨s, w', rfl⟩ := exists_cons_of_ne_nil hfr.2
      rw [flatten_cons, length_append, length_cons] at hn
      obtain ⟨m, rfl⟩ : ∃ m, n = m + 1 := ⟨n - 1, by omega⟩
      have hrd : p (s :: (w' ++ ws.flatten)) = some (a, ws.flatten) := hfr.1 ws.flatten
      rw [flatten_cons, cons_append, upTo, hrd]
      change (upTo p m ws.flatten).map (a :: ·) = _
      rw [ih m (by omega), Option.map_some]
  exact hup _ le_rfl

end Get
