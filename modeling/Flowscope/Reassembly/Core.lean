import Flowscope.Reassembly.Chunks
import Flowscope.Reassembly.Track

/-!
# What the built-in reassemblers share

`Core` holds the fields that `SegmentBufferReassembler` (`src/segment_reassembler.rs`) and
`BufferedReassembler` (`src/reassembler.rs`) have in common: the ready output, the stream position,
the settings, the counters and the stop. The functions on it are those whose bodies the two files
repeat. `Reassembler` is the trait, restricted to what the built-in ones implement, and `Call` is
one call of it by a consumer, who collects the output of every call in one `StreamChunks`.
-/

namespace Flowscope

/-- The settings of a built-in reassembler, as its `with_` functions set them. -/
structure Config where
  /-- The window, the grace period and the deadline. -/
  rules : StreamRules
  /-- The cap of the ready buffer. -/
  max_buffer : Option ℕ
  /-- What happens at the cap. -/
  overflow_policy : OverflowPolicy
  /-- At how many percent of the cap the high-watermark anomaly fires. -/
  high_watermark_threshold_pct : Option ℕ
deriving DecidableEq, Repr

/-- `default()`: no cap, and the default rules. -/
def Config.new : Config where
  rules := StreamRules.new
  max_buffer := none
  overflow_policy := .slidingWindow
  high_watermark_threshold_pct := none

/-- The fields that the built-in reassemblers have in common. -/
structure Core extends Config where
  /-- In-order output that was not drained yet. -/
  ready : StreamChunks
  /-- The stream position. -/
  track : Track
  /-- Holes skipped. -/
  gaps : ℕ
  /-- Bytes skipped. -/
  gap_bytes : ℕ
  /-- Holes skipped because the peer acknowledged them. -/
  ack_confirmed_gaps : ℕ
  /-- Segments that arrived after their hole had been skipped. -/
  dropped_segments : ℕ
  /-- Segments that repeat bytes. -/
  retransmits : ℕ
  /-- Bytes dropped at the cap. -/
  bytes_dropped_oversize : ℕ
  /-- The peak of the bytes held. -/
  high_watermark : ℕ
  /-- Whether the threshold is exceeded. -/
  above_threshold : Bool
  /-- How often it came to be exceeded. -/
  high_watermark_crossings : ℕ
  /-- Why the side stopped. -/
  stop : Option ReassemblyStop

namespace Core

/-- A side that saw nothing yet. -/
def new (config : Config) : Core where
  toConfig := config
  ready := .new
  track := .new
  gaps := 0
  gap_bytes := 0
  ack_confirmed_gaps := 0
  dropped_segments := 0
  retransmits := 0
  bytes_dropped_oversize := 0
  high_watermark := 0
  above_threshold := false
  high_watermark_crossings := 0
  stop := none

/-- The occupancy at which the threshold is exceeded. -/
def trigger (c : Core) : Option ℕ :=
  match c.high_watermark_threshold_pct, c.max_buffer with
  | some pct, some cap => some (min (cap * pct) (2^64 - 1) / 100)
  | _, _ => none

/-- Bytes let through count as momentarily buffered. -/
def notePassthrough (c : Core) (len : ℕ) : Core :=
  { c with
    high_watermark := max c.high_watermark len
    high_watermark_crossings := match c.trigger with
      | some trigger =>
        if trigger ≤ len then c.high_watermark_crossings + 1 else c.high_watermark_crossings
      | none => c.high_watermark_crossings
    above_threshold := false }

/-- Note the occupancy, where `held` bytes are held besides the ready ones. -/
def updateWatermark (c : Core) (held : ℕ) : Core :=
  { c with
    high_watermark := max c.high_watermark (c.ready.len + held)
    above_threshold := match c.trigger with
      | some trigger => decide (trigger ≤ c.ready.len)
      | none => c.above_threshold
    high_watermark_crossings := match c.trigger with
      | some trigger =>
        if trigger ≤ c.ready.len ∧ c.above_threshold = false then c.high_watermark_crossings + 1
        else c.high_watermark_crossings
      | none => c.high_watermark_crossings }

/-- Report a gap up to `off` and move the stream there. -/
def skipTo (c : Core) (off : ℕ) (ts : Timestamp) : Core :=
  if off ≤ c.track.next_off then c
  else
    { c with
      gaps := c.gaps + 1
      gap_bytes := c.gap_bytes + (off - c.track.next_off)
      ready := c.ready.pushGap (off - c.track.next_off)
      track := (c.track.recordSkip c.track.next_off off).advanceTo off ts }

/-- Count a segment that lies before the stream position: too old, or in a hole that was skipped,
or seen before. -/
def noteOld (c : Core) (start end_ : ℤ) : Core :=
  if end_ < c.track.next_off - asI64 c.rules.max_ahead then
    { c with track.out_of_window := c.track.out_of_window + 1 }
  else if 0 ≤ start ∧ c.track.inSkipped start.toNat end_.toNat = true then
    { c with dropped_segments := c.dropped_segments + 1 }
  else { c with retransmits := c.retransmits + 1 }

/-- Move the ready output to `out`, with the stop. -/
def drainInto (c : Core) (out : StreamChunks) : Core × StreamChunks :=
  let moved := out.append c.ready
  ({ c with above_threshold := false, ready := moved.2 },
    match c.stop with
    | some stop => moved.1.setStop stop
    | none => moved.1)

/-- Take the ready bytes and drop the gaps. -/
def take (c : Core) : List UInt8 × Core :=
  let taken := c.ready.takeBytes
  (taken.1, { c with above_threshold := false, ready := taken.2 })

/-- Drop the ready output and stop. -/
def release (c : Core) : Core :=
  { c with
    ready := .new
    track := c.track.dropStray
    stop := c.stop.or (some .memcap) }

theorem skipTo_of_le {c : Core} {off : ℕ} (h : off ≤ c.track.next_off) (ts : Timestamp) :
    c.skipTo off ts = c := if_pos h

theorem skipTo_of_lt {c : Core} {off : ℕ} (h : c.track.next_off < off) (ts : Timestamp) :
    c.skipTo off ts =
      { c with
        gaps := c.gaps + 1
        gap_bytes := c.gap_bytes + (off - c.track.next_off)
        ready := c.ready.pushGap (off - c.track.next_off)
        track := (c.track.recordSkip c.track.next_off off).advanceTo off ts } :=
  if_neg (not_le.mpr h)

variable (c : Core) (off : ℕ) (ts : Timestamp)

@[simp]
theorem next_off_skipTo : (c.skipTo off ts).track.next_off = max c.track.next_off off := by
  by_cases h : off ≤ c.track.next_off
  · rw [skipTo_of_le h, max_eq_left h]
  · rw [skipTo_of_lt (not_le.mp h), Track.next_off_advanceTo]
    rfl

@[simp]
theorem stop_skipTo : (c.skipTo off ts).stop = c.stop := by
  unfold skipTo
  split_ifs <;> rfl

@[simp]
theorem toConfig_skipTo : (c.skipTo off ts).toConfig = c.toConfig := by
  unfold skipTo
  split_ifs <;> rfl

@[simp]
theorem oow_skipTo : (c.skipTo off ts).track.oow = c.track.oow := by
  by_cases h : off ≤ c.track.next_off
  · rw [skipTo_of_le h]
  · rw [skipTo_of_lt (not_le.mp h), Track.oow_advanceTo]
    rfl

@[simp]
theorem anchored_skipTo : (c.skipTo off ts).track.anchored = c.track.anchored := by
  by_cases h : off ≤ c.track.next_off
  · rw [skipTo_of_le h]
  · rw [skipTo_of_lt (not_le.mp h), Track.anchored_advanceTo]
    rfl

@[simp]
theorem evidence_skipTo : (c.skipTo off ts).track.evidence = c.track.evidence := by
  by_cases h : off ≤ c.track.next_off
  · rw [skipTo_of_le h]
  · rw [skipTo_of_lt (not_le.mp h), Track.evidence_advanceTo]
    rfl

end Core

inductive SegmentOutcome where
  /-- It was processed as `segment` does. -/
  | buffered
  /-- The caller delivers the payload without its first `skip` bytes. -/
  | passthrough (skip : ℕ)
deriving DecidableEq, Repr

/-- A reassembler of one direction of one session. -/
class Reassembler (R : Type) where
  /-- A segment arrived. -/
  segment : R → Seq → List UInt8 → Timestamp → Result R
  /-- A segment arrived, and the caller can deliver its bytes itself. -/
  segmentInto : R → Seq → List UInt8 → Timestamp → Result (R × SegmentOutcome)
  /-- The first byte of this direction has this sequence number. -/
  setOrigin : R → Seq → R
  /-- The peer acknowledged everything before this sequence number. -/
  peerAck : R → Seq → Timestamp → Result R
  /-- This direction's FIN is at this sequence number. -/
  finSeen : R → Seq → Timestamp → Result R
  /-- The capture cut this many bytes from this sequence number on. -/
  missing : R → Seq → Seq → Timestamp → Result R
  /-- Move the ready output to the end of the given one. -/
  drainInto : R → StreamChunks → R × StreamChunks
  /-- The flow ends: give up on every hole. -/
  flushPending : R → Result R
  /-- Time passed. -/
  advanceTime : R → Timestamp → Result R
  /-- Take the ready bytes and drop the gaps. -/
  take : R → List UInt8 × R
  /-- Drop all data and stop. -/
  release : R → R
  /-- The bytes held, bookkeeping included. -/
  currentBytes : R → ℕ

inductive Call where
  | segment (seq : Seq) (payload : List UInt8) (ts : Timestamp)
  | segmentInto (seq : Seq) (payload : List UInt8) (ts : Timestamp)
  | setOrigin (seq : Seq)
  | peerAck (ack : Seq) (ts : Timestamp)
  | finSeen (end_ : Seq) (ts : Timestamp)
  | missing (seq len : Seq) (ts : Timestamp)
  | drainInto
  | flushPending
  | advanceTime (now : Timestamp)
  | take
  | release
deriving DecidableEq, Repr

namespace Call

variable {R : Type} [Reassembler R]

/-- A call, by a consumer who collects the output in the second component: what is drained, and
what passes through. -/
def exec (call : Call) (s : R × StreamChunks) : Result (R × StreamChunks) :=
  match call with
  | .segment seq payload ts => do return (← Reassembler.segment s.1 seq payload ts, s.2)
  | .segmentInto seq payload ts => do
    match ← Reassembler.segmentInto s.1 seq payload ts with
    | (r, .buffered) => return (r, s.2)
    | (r, .passthrough skip) => return (r, s.2.pushData (payload.drop skip))
  | .setOrigin seq => return (Reassembler.setOrigin s.1 seq, s.2)
  | .peerAck ack ts => do return (← Reassembler.peerAck s.1 ack ts, s.2)
  | .finSeen end_ ts => do return (← Reassembler.finSeen s.1 end_ ts, s.2)
  | .missing seq len ts => do return (← Reassembler.missing s.1 seq len ts, s.2)
  | .drainInto => return Reassembler.drainInto s.1 s.2
  | .flushPending => do return (← Reassembler.flushPending s.1, s.2)
  | .advanceTime now => do return (← Reassembler.advanceTime s.1 now, s.2)
  | .take => return ((Reassembler.take s.1).2, s.2)
  | .release => return (Reassembler.release s.1, s.2)

def run (calls : List Call) (s : R × StreamChunks) : Result (R × StreamChunks) :=
  Except.runs exec calls s

@[simp]
theorem run_nil (s : R × StreamChunks) : run [] s = .ok s := rfl

theorem run_cons (call : Call) (calls : List Call) (s : R × StreamChunks) :
    run (call :: calls) s = call.exec s >>= run calls := rfl

/-- A condition holds of every call of a sequence and of the state that it is made in. -/
abbrev Along (P : Call → R × StreamChunks → Prop) (calls : List Call) (s : R × StreamChunks) :
    Prop :=
  Except.Along exec P calls s

end Call

end Flowscope
