import Mathlib.Tactic

/-!
# Serial numbers

Positions of an unbounded sequence, numbered modulo `2^w`. The number of a position does not
determine it, but the signed difference of two numbers is the distance of their positions whenever
that distance fits in `w` bits (`toInt_number_sub_number`): a receiver that knows one position can
place every number within half the number space of it.
-/

namespace Serial

variable {w : ℕ}

/-- The number of the position `z`, when position zero is numbered `base`. -/
def number (base : BitVec w) (z : ℤ) : BitVec w := base + BitVec.ofInt w z

variable (base : BitVec w)

@[simp]
theorem number_zero : number base 0 = base := by
  simp [number]

/-- Moving on by `d` positions adds `d` to the number. -/
theorem number_add (z d : ℤ) : number base (z + d) = number base z + BitVec.ofInt w d := by
  rw [number, number, BitVec.ofInt_add, BitVec.add_assoc]

/-- Moving on by a natural number of positions. -/
theorem number_add_natCast (z : ℤ) (n : ℕ) :
    number base (z + n) = number base z + BitVec.ofNat w n := by
  rw [number_add, BitVec.ofInt_natCast]

/-- The position of a number in the window of `2^w` positions from `lo` on. -/
def place (base : BitVec w) (lo : ℤ) (x : BitVec w) : ℤ := lo + (x - number base lo).toNat

theorem le_place (lo : ℤ) (x : BitVec w) : lo ≤ place base lo x := by
  unfold place
  omega

theorem number_place (lo : ℤ) (x : BitVec w) : number base (place base lo x) = x := by
  rw [place, number_add_natCast, BitVec.ofNat_toNat, BitVec.setWidth_eq, BitVec.add_comm,
    BitVec.sub_add_cancel]

/-- The signed difference of two numbers is the distance of their positions, when it is within
half the number space. -/
theorem toInt_number_sub_number (hw : 0 < w) (base : BitVec w) (x y : ℤ)
    (hlo : -2 ^ (w - 1) ≤ x - y) (hhi : x - y < 2 ^ (w - 1)) :
    (number base x - number base y).toInt = x - y := by
  have hsub : number base x - number base y = BitVec.ofInt w (x - y) := by
    have h : number base x = number base y + BitVec.ofInt w (x - y) := by
      rw [← number_add, add_sub_cancel]
    rw [h, BitVec.add_comm, BitVec.add_sub_cancel]
  have h2 : (2 : ℤ) ^ w = 2 * 2 ^ (w - 1) := by
    obtain ⟨n, rfl⟩ : ∃ n, w = n + 1 := ⟨w - 1, by omega⟩
    rw [Nat.add_sub_cancel, pow_succ, mul_comm]
  rw [hsub, BitVec.toInt_ofInt]
  refine Int.bmod_eq_of_le ?_ ?_
  · push_cast
    omega
  · push_cast
    omega

end Serial
