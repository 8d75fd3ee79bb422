import Flowscope.Lib.Outcome

/-!
# Times, policies, and faults

The small types that the reassemblers share: packet times (`src/timestamp.rs`), durations, the
policies and stop reasons of `src/event.rs`, and the faults that a call may end in instead of
returning.

A `Duration` is a number of nanoseconds. Adding and subtracting packet times cannot overflow one,
but multiplying a configured duration can, and then the program panics; `Duration.mul` is the only
operation here that can fault. Counters and stream offsets, 64-bit in the program, are natural
numbers.
-/

namespace Flowscope

/-- How a call ends when it does not return. -/
inductive Fault where
  /-- A panic: a duration was multiplied past `Duration.max`. -/
  | durationOverflow
  /-- A call that calls itself without end. -/
  | recursion
  /-- A loop whose guard still held after as many iterations as there is data to work off. -/
  | divergence
  /-- A panic: an `expect` found nothing. -/
  | expect
deriving DecidableEq, Repr

/-- What a call that may fault returns. -/
abbrev Result (α : Type) : Type := Except Fault α

/-- A span of time, in nanoseconds. -/
abbrev Duration : Type := ℕ

/-- The longest representable span, `Duration::MAX`. -/
def Duration.max : Duration := (2^64 - 1) * 10^9 + 999999999

/-- A multiple of a span; the program panics where it is not representable. -/
def Duration.mul (d : Duration) (n : ℕ) : Result Duration :=
  if n * d ≤ Duration.max then .ok (n * d) else .error .durationOverflow

/-- A packet time. -/
structure Timestamp where
  /-- Seconds since the epoch. -/
  sec : ℕ
  /-- Nanoseconds within the second. -/
  nsec : ℕ
deriving DecidableEq, Repr

def Timestamp.zero : Timestamp := ⟨0, 0⟩

/-- The span since the epoch. -/
def Timestamp.toDuration (t : Timestamp) : Duration := t.sec * 10^9 + t.nsec

/-- The span from `other` to `t`, zero when `t` precedes `other`. -/
def Timestamp.saturatingSub (t other : Timestamp) : Duration := t.toDuration - other.toDuration

/-- The later of two times, in the derived order: by second, then by nanosecond. -/
def Timestamp.max (a b : Timestamp) : Timestamp :=
  if a.sec < b.sec ∨ a.sec = b.sec ∧ a.nsec ≤ b.nsec then b else a

@[simp]
theorem Timestamp.saturatingSub_self (t : Timestamp) : t.saturatingSub t = 0 := Nat.sub_self _

/-- What a side does when its ready buffer would exceed its cap. -/
inductive OverflowPolicy where
  /-- Drop the oldest undelivered bytes, and report them as a gap. -/
  | slidingWindow
  /-- Stop reassembling the side. -/
  | dropFlow
deriving DecidableEq, Repr

/-- Which bytes win where two segments overlap. -/
inductive TcpOverlapPolicy where
  /-- Those that arrived first. -/
  | first
  /-- Those that arrived last. -/
  | last
  /-- Those of the segment that starts lower. -/
  | lowerSeq
  /-- Those of the segment that starts higher. -/
  | higherSeq
deriving DecidableEq, Repr

/-- Why a side stopped. -/
inductive ReassemblyStop where
  /-- The cap of the ready buffer was exceeded under `OverflowPolicy.dropFlow`. -/
  | overflow
  /-- The memory was reclaimed. -/
  | memcap
deriving DecidableEq, Repr

/-- A sequence number, or a length that is added to one. -/
abbrev Seq : Type := BitVec 32

/-- An unsigned 64-bit setting read as a signed one: `as i64`. -/
def asI64 (n : ℕ) : ℤ := (n : ℤ).bmod (2^64)

/-- A signed offset read as an unsigned one: `as u64`. Offsets are not bounded above here, so only
a negative one wraps. -/
def asU64 (z : ℤ) : ℕ := if 0 ≤ z then z.toNat else (2^64 + z).toNat

theorem asI64_of_lt {n : ℕ} (h : n < 2^63) : asI64 n = n := by
  refine Int.bmod_eq_of_le (by norm_num) ?_
  omega

theorem asU64_of_nonneg {z : ℤ} (h : 0 ≤ z) : asU64 z = z.toNat := if_pos h

end Flowscope
