import Mathlib.Tactic

/-!
# Lists with a blanked front

A sliding buffer keeps the positions of what it drops: the entries at its front turn into `none`,
and the others stay where they are. `Blanked full shown lost` says that `shown` is `full` with some
of its first entries blanked, `lost` of which had a value. Blanking twice is blanking once
(`Blanked.trans`), and what is appended to both lists stays (`Blanked.append`).
-/

namespace List

universe u

variable {α : Type u} {full shown shown' : List (Option α)} {lost lost' : ℕ}

/-- The list `shown` is `full` with a front turned into `none`, in which `lost` entries had a
value. -/
def Blanked (full shown : List (Option α)) (lost : ℕ) : Prop :=
  ∃ k ≤ full.length, shown = replicate k none ++ full.drop k ∧
    lost = (full.take k).countP Option.isSome

theorem countP_replicate_none (n : ℕ) :
    (replicate n (none : Option α)).countP Option.isSome = 0 := by
  rw [countP_replicate]
  rfl

namespace Blanked

theorem refl (l : List (Option α)) : Blanked l l 0 := ⟨0, Nat.zero_le _, rfl, rfl⟩

variable (h : Blanked full shown lost)
include h

theorem length_eq : shown.length = full.length := by
  obtain ⟨k, hk, rfl, -⟩ := h
  rw [length_append, length_replicate, length_drop]
  omega

theorem append (rest : List (Option α)) : Blanked (full ++ rest) (shown ++ rest) lost := by
  obtain ⟨k, hk, rfl, rfl⟩ := h
  refine ⟨k, ?_, ?_, ?_⟩
  · rw [length_append]
    omega
  · rw [drop_append_of_le_length hk, append_assoc]
  · rw [take_append_of_le_length hk]

/-- The later of two fronts is the front. -/
theorem trans (h' : Blanked shown shown' lost') : Blanked full shown' (lost + lost') := by
  have hln := h.length_eq
  obtain ⟨k, hk, hsh, rfl⟩ := h
  obtain ⟨k', hk', rfl, rfl⟩ := h'
  rw [hln] at hk'
  rcases le_total k' k with hle | hle
  · -- the second front lies in the first one
    refine ⟨k, hk, ?_, ?_⟩
    · rw [hsh, drop_append_of_le_length (by simpa using hle), drop_replicate, ← append_assoc,
        replicate_append_replicate, Nat.add_sub_cancel' hle]
    · rw [hsh, take_append_of_le_length (by simpa using hle), take_replicate,
        countP_replicate_none, Nat.add_zero]
  · -- the second front reaches further
    obtain ⟨n, rfl⟩ := Nat.exists_eq_add_of_le hle
    have hfn : (replicate k (none : Option α)).length = k := length_replicate
    have htk : shown.take (k + n) = replicate k none ++ (full.drop k).take n := by
      rw [hsh, take_append, hfn, Nat.add_sub_cancel_left, take_of_length_le (by simp)]
    have hdr : shown.drop (k + n) = (full.drop k).drop n := by
      rw [hsh, drop_append, hfn, Nat.add_sub_cancel_left, drop_of_length_le (by simp),
        nil_append]
    refine ⟨k + n, hk', ?_, ?_⟩
    · rw [hdr, drop_drop]
    · rw [htk, take_add, countP_append, countP_append, countP_replicate_none, Nat.zero_add]

end Blanked

end List
