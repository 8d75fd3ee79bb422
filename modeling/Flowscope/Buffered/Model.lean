import Flowscope.Segment.Model

/-!
# The buffered reassembler

`BufferedReassembler` of `src/reassembler.rs`: one segment ahead of the stream waits in a slot, and
a second one gives up the hole in front of the first.
-/

namespace Flowscope

structure BufferedReassembler extends Core where
  /-- The segment that waits for the hole in front of it. -/
  reorder : Option Candidate

namespace BufferedReassembler

/-- A new reassembler with the given settings. -/
def new (config : Config) : BufferedReassembler where
  toCore := .new config
  reorder := none

/-- Note the occupancy of the ready buffer. -/
def updateWatermark (s : BufferedReassembler) : BufferedReassembler :=
  { s with toCore := s.toCore.updateWatermark 0 }

/-- Append in-order bytes to the ready buffer, under its cap. -/
def appendWithCap (s : BufferedReassembler) (payload : List UInt8) : BufferedReassembler :=
  if s.stop.isSome || payload.isEmpty then s
  else
    match s.max_buffer with
    | none => { s with ready := s.ready.pushData payload }.updateWatermark
    | some cap =>
      let projected := s.ready.len + payload.length
      if projected ≤ cap then { s with ready := s.ready.pushData payload }.updateWatermark
      else
        match s.overflow_policy with
        | .dropFlow =>
          { s with
            bytes_dropped_oversize := s.bytes_dropped_oversize + payload.length
            stop := some .overflow
            reorder := none
            track := s.track.dropStray }
        | .slidingWindow =>
          let to_drop := projected - cap
          let buffered := s.ready.len
          if buffered ≤ to_drop then
            let extra := payload.length - cap
            { s with
              bytes_dropped_oversize := s.bytes_dropped_oversize + buffered + extra
              ready := ((s.ready.dropFront buffered).pushGap extra).pushData
                (payload.drop extra) }.updateWatermark
          else
            { s with
              bytes_dropped_oversize := s.bytes_dropped_oversize + to_drop
              ready := (s.ready.dropFront to_drop).pushData payload }.updateWatermark

/-- Skip the hole in front of `off`. -/
def skipTo (s : BufferedReassembler) (off : ℕ) (ts : Timestamp) : BufferedReassembler :=
  { s with toCore := s.toCore.skipTo off ts }

/-- Deliver in-order bytes that start at or before the stream position. -/
def deliverAt (s : BufferedReassembler) (off : ℕ) (data : List UInt8) (ts : Timestamp) :
    BufferedReassembler :=
  let next := s.track.next_off
  let end_ := off + data.length
  if end_ ≤ next then s
  else { s with track := s.track.advanceTo end_ ts }.appendWithCap (data.drop (next - off))

/-- Give up on the hole in front of the waiting segment and deliver it. -/
def releaseReorder (s : BufferedReassembler) (ts : Timestamp) : BufferedReassembler :=
  match s.reorder with
  | some c => ({ s with reorder := none }.skipTo c.off ts).deliverAt c.off c.data ts
  | none => s

/-- Deliver the waiting segment if the stream reached it. -/
def tryReorder (s : BufferedReassembler) (ts : Timestamp) : BufferedReassembler :=
  match s.reorder with
  | some c =>
    if c.off ≤ s.track.next_off then { s with reorder := none }.deliverAt c.off c.data ts else s
  | none => s

/-- The stream goes on at a candidate. -/
def resync (s : BufferedReassembler) (c : Candidate) (ts : Timestamp) : BufferedReassembler :=
  let s := ((s.releaseReorder ts).skipTo c.off ts).deliverAt c.off c.data ts
  if s.stop.isNone then s.skipTo c.end_ ts else s

/-- An acknowledged hole whose grace period is over. -/
def checkEvidence (s : BufferedReassembler) (now : Timestamp) : BufferedReassembler :=
  match s.track.evidenceDue now s.rules.ack_grace with
  | none => s
  | some frontier =>
    match s.reorder with
    | some c =>
      if c.off ≤ frontier then
        { s with ack_confirmed_gaps := s.ack_confirmed_gaps + 1 }.releaseReorder now
      else s
    | none => { s with ack_confirmed_gaps := s.ack_confirmed_gaps + 1 }.skipTo frontier now

/-- Whether the waiting segment waited for longer than the deadline. -/
def holeExpired (s : BufferedReassembler) (now : Timestamp) : Bool :=
  s.reorder.any fun c => s.rules.deadline < now.saturatingSub c.ts

/-- Deadlines: an acknowledged hole after the grace period, any hole after the deadline, a stray
after four. -/
def checkTimers (s : BufferedReassembler) (now : Timestamp) : Result BufferedReassembler :=
  if s.stop.isSome then return s
  else do
    let s := s.checkEvidence now
    let s := if s.holeExpired now then s.releaseReorder now else s
    let limit ← s.rules.deadline.mul 4
    return { s with track := s.track.expireStray now limit }

/-- A segment ahead of the stream, when no other one waits. -/
def hold (s : BufferedReassembler) (off : ℕ) (payload : List UInt8) (ts : Timestamp) :
    BufferedReassembler :=
  { s with
    reorder := some { off, data := payload, ts, missing := 0 }
    track.last_progress := ts }

/-- A segment that reaches past the stream position and does not start past it. -/
def feedInOrder (s : BufferedReassembler) (start end_ : ℤ) (payload : List UInt8)
    (ts : Timestamp) (pass : Bool) : Result (BufferedReassembler × SegmentOutcome) := do
  let next := s.track.next_off
  let s := if start < next then { s with retransmits := s.retransmits + 1 } else s
  let skip := (next - start).toNat
  let len := payload.length - skip
  let s' := { s with track := s.track.advanceTo end_.toNat ts }
  if pass && s.ready.isEmpty && s.reorder.isNone && s.max_buffer.all (len ≤ ·) then
    return ({ s' with toCore := s'.toCore.notePassthrough len }, .passthrough skip)
  else
    return (← ((s'.appendWithCap (payload.drop skip)).tryReorder ts).checkTimers ts, .buffered)

def feed : ℕ → BufferedReassembler → Seq → List UInt8 → Timestamp → Bool →
    Result (BufferedReassembler × SegmentOutcome)
  | 0, _, _, _, _, _ => .error .recursion
  | depth + 1, s, seq, payload, ts, pass =>
    if payload.isEmpty || s.stop.isSome then return (s, .buffered)
    else do
      let s := { s with track := s.track.anchor seq ts }
      let start : ℤ := s.track.offsetOf seq
      let end_ := start + payload.length
      let next : ℤ := s.track.next_off
      if asI64 s.rules.max_ahead < start - next then
        match s.track.farAhead (asU64 start) payload ts s.rules.max_ahead with
        | (track, .resync c) => feed depth (resync { s with track } c ts) seq payload ts false
        | (track, .held) => return ({ s with track }, .buffered)
      else if end_ ≤ next then
        return (← { s with toCore := s.toCore.noteOld start end_ }.checkTimers ts, .buffered)
      else if next < start then
        -- wait for the hole, unless another segment does: then give up on that one's
        if s.reorder.isSome then feed depth (s.releaseReorder ts) seq payload ts false
        else return (← (s.hold start.toNat payload ts).checkTimers ts, .buffered)
      else s.feedInOrder start end_ payload ts pass

def segment (s : BufferedReassembler) (seq : Seq) (payload : List UInt8) (ts : Timestamp) :
    Result BufferedReassembler := do return (← s.feed nesting seq payload ts false).1

def segmentInto (s : BufferedReassembler) (seq : Seq) (payload : List UInt8) (ts : Timestamp) :
    Result (BufferedReassembler × SegmentOutcome) := s.feed nesting seq payload ts true

def setOrigin (s : BufferedReassembler) (seq : Seq) : BufferedReassembler :=
  { s with track := s.track.anchor seq Timestamp.zero }

/-- What an ACK, a FIN or cut bytes proved: the stream goes on at the candidate that they
corroborated, if any. -/
def useEvidence (s : BufferedReassembler) (proved : Track × Option Candidate) (ts : Timestamp) :
    BufferedReassembler :=
  match proved with
  | (track, some c) => resync { s with track } c ts
  | (track, none) => { s with track }

/-- `peer_ack`. An ACK covers this side's FIN too, so it proves one byte less. -/
def peerAck (s : BufferedReassembler) (ack : Seq) (ts : Timestamp) : Result BufferedReassembler :=
  if s.stop.isSome then return s
  else (s.useEvidence (s.track.recordEvidence (ack - 1) ts s.rules.max_ahead) ts).checkTimers ts

def finSeen (s : BufferedReassembler) (end_ : Seq) (ts : Timestamp) : BufferedReassembler :=
  if s.stop.isSome then s
  else s.useEvidence (s.track.fin end_ ts s.rules.max_ahead) ts

/-- One iteration of the loop of `missing`: skip up to the waiting segment, or to the end of the
cut bytes, and deliver. -/
def skipMissing (s : BufferedReassembler) (end_ : ℕ) (ts : Timestamp) : BufferedReassembler :=
  let to_ := match s.reorder with
    | some c => min c.off end_
    | none => end_
  (s.skipTo to_ ts).tryReorder ts

/-- Cut bytes that the stream has reached: skip them, delivering the waiting segment where it falls
inside them. One iteration delivers it, and one more reaches the end. -/
def skipCut (s : BufferedReassembler) (end_ : ℕ) (ts : Timestamp) : Result BufferedReassembler :=
  whileDo .divergence (fun s => s.stop.isNone && s.track.next_off < end_)
    (fun s => .ok (s.skipMissing end_ ts)) 2 s

def missingFrom : ℕ → BufferedReassembler → Seq → Seq → Timestamp → Result BufferedReassembler
  | 0, _, _, _, _ => .error .recursion
  | depth + 1, s, seq, len, ts =>
    if s.stop.isSome || len = 0 then return s
    else do
      let s := { s with track := s.track.anchor seq ts }
      let start : ℤ := s.track.offsetOf seq
      let end_ := start + len.toNat
      let next : ℤ := s.track.next_off
      if end_ ≤ next then return s
      else if asI64 s.rules.max_ahead < start - next then
        match s.track.farMissing (asU64 start) len.toNat ts s.rules.max_ahead with
        | (track, some c) => missingFrom depth (resync { s with track } c ts) seq len ts
        | (track, none) => checkTimers { s with track } ts
      else if start ≤ next then
        let s ← s.skipCut end_.toNat ts
        s.checkTimers ts
      else
        (s.useEvidence (s.track.recordEvidence (seq + len) ts s.rules.max_ahead) ts).checkTimers ts

/-- `missing`, with the budget of nested calls. -/
def missing (s : BufferedReassembler) (seq len : Seq) (ts : Timestamp) :
    Result BufferedReassembler := s.missingFrom nesting seq len ts

def drainInto (s : BufferedReassembler) (out : StreamChunks) :
    BufferedReassembler × StreamChunks :=
  let drained := s.toCore.drainInto out
  ({ s with toCore := drained.1 }, drained.2)

def flushPending (s : BufferedReassembler) : BufferedReassembler :=
  if s.stop.isSome then s
  else
    let ts := s.track.last_progress
    let s := s.releaseReorder ts
    -- a trailing gap for what was proven and never seen
    let s := match s.track.evidenceFrontier with
      | some frontier =>
        { s with ack_confirmed_gaps := s.ack_confirmed_gaps + 1 }.skipTo frontier ts
      | none => s
    { s with track := s.track.dropStray }

def take (s : BufferedReassembler) : List UInt8 × BufferedReassembler :=
  let taken := s.toCore.take
  (taken.1, { s with toCore := taken.2 })

def release (s : BufferedReassembler) : BufferedReassembler :=
  { s with toCore := s.toCore.release, reorder := none }

def currentBytes (s : BufferedReassembler) : ℕ :=
  let held := match s.reorder with
    | some c => c.heapBytes
    | none => 0
  s.ready.len + held + s.track.heapBytes

instance : Reassembler BufferedReassembler where
  segment
  segmentInto
  setOrigin
  peerAck
  finSeen s end_ ts := .ok (s.finSeen end_ ts)
  missing
  drainInto
  flushPending s := .ok s.flushPending
  advanceTime := checkTimers
  take
  release
  currentBytes

end BufferedReassembler

end Flowscope
