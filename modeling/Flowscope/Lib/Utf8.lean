import Mathlib.Tactic

/-!
# UTF-8

Whether some bytes are UTF-8, as a machine that reads one byte at a time. Between characters it takes
any first byte; within a character it takes only continuation bytes, of which some are ruled out after
the first byte, so that there are no overlong forms, no surrogates and nothing above U+10FFFF.
-/

namespace Utf8

/-- Where the machine stands. -/
inductive State where
  /-- Between characters. -/
  | start
  /-- Within a character: the next byte is one from `lo` to `hi`, and `more` bytes follow it. -/
  | within (lo hi : UInt8) (more : ℕ)
deriving DecidableEq, Repr

/-- The first byte of a character. -/
def lead (b : UInt8) : Option State :=
  if b ≤ 0x7F then some .start
  else if b < 0xC2 then none
  else if b ≤ 0xDF then some (.within 0x80 0xBF 0)
  else if b = 0xE0 then some (.within 0xA0 0xBF 1)
  else if b = 0xED then some (.within 0x80 0x9F 1)
  else if b ≤ 0xEF then some (.within 0x80 0xBF 1)
  else if b = 0xF0 then some (.within 0x90 0xBF 2)
  else if b ≤ 0xF3 then some (.within 0x80 0xBF 2)
  else if b = 0xF4 then some (.within 0x80 0x8F 2)
  else none

/-- One byte more; nothing if it cannot stand there. -/
def step : State → UInt8 → Option State
  | .start, b => lead b
  | .within lo hi more, b =>
    if lo ≤ b ∧ b ≤ hi then
      match more with
      | 0 => some .start
      | more + 1 => some (.within 0x80 0xBF more)
    else none

/-- All bytes of a string. -/
def run : State → List UInt8 → Option State
  | s, [] => some s
  | s, b :: rest => (step s b).bind fun s' => run s' rest

/-- The bytes are UTF-8. -/
def valid (l : List UInt8) : Bool := run .start l = some .start

end Utf8
