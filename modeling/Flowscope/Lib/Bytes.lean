import Mathlib.Tactic

/-!
# Strings of bytes

Literals as bytes, the value of a hexadecimal digit, and numbers with the most significant byte first:
what is written is read back (`beNat_beBytes`).
-/

open List

/-- The bytes of a string. -/
abbrev Bytes : Type := List UInt8

/-- Whether a string is in a list of strings is decided with this, found once and not in every
definition that asks. -/
instance : LawfulBEq Bytes := inferInstance

/-- The bytes of a literal. -/
def ascii (s : String) : Bytes := s.toList.map fun c => UInt8.ofNat c.toNat

/-- The value of a digit in base 16. -/
def hexDigit (b : UInt8) : Option ℕ :=
  if 48 ≤ b ∧ b ≤ 57 then some (b.toNat - 48)
  else if 97 ≤ b ∧ b ≤ 102 then some (b.toNat - 87)
  else if 65 ≤ b ∧ b ≤ 70 then some (b.toNat - 55)
  else none

/-- A number from its bytes, the most significant first. -/
def beNat (l : Bytes) : ℕ := l.foldl (fun n b => n * 256 + b.toNat) 0

/-- The last `k` bytes of a number, the most significant first. -/
def beBytes : ℕ → ℕ → Bytes
  | 0, _ => []
  | k + 1, n => beBytes k (n >>> 8) ++ [UInt8.ofNat n]

/-- As many bytes are written as were asked for. -/
theorem length_beBytes (k n : ℕ) : (beBytes k n).length = k := by
  induction k generalizing n with
  | zero => rfl
  | succ k ih => rw [beBytes, length_append, ih, length_singleton]

/-- What is read back is the number, cut to the bytes that there are. -/
theorem beNat_beBytes (k n : ℕ) : beNat (beBytes k n) = n % 256^k := by
  induction k generalizing n with
  | zero => rw [Nat.pow_zero, Nat.mod_one]; rfl
  | succ k ih =>
    have hls : (UInt8.ofNat n).toNat = n % 256 := UInt8.toNat_ofNat'
    rw [beBytes, beNat, foldl_append, ← beNat, ih, foldl_cons, foldl_nil, hls,
      Nat.shiftRight_eq_div_pow]
    calc n / 2^8 % 256^k * 256 + n % 256 = n % 256 + 256 * (n / 256 % 256^k) := by
          norm_num
          ring
      _ = n % 256^(k + 1) := by rw [Nat.pow_succ', Nat.mod_mul]
