import Flowscope.Reassembly.Core
import Flowscope.Segment.Store

/-!
# The segment-buffer reassembler

`SegmentBufferReassembler` of `src/segment_reassembler.rs`: segments ahead of the stream wait in an
out-of-order store until the hole in front of them is filled, or is given up because of a deadline,
an acknowledgement, the budget of the store, or the end of the flow.

Loops carry a budget of one iteration for every piece in the store. `feed` and `missing` call
themselves after a resync, and carry a budget of nested calls (`nesting`).
-/

namespace Flowscope

/-- How deep the calls of `feed` and `missing` by themselves go here before they are taken to be
endless. -/
def nesting : ℕ := 8

structure SegmentBufferReassembler extends Core where
  /-- The out-of-order store, while something is held. -/
  ooo : Option Ooo
  /-- The budget of the store. -/
  max_ooo_buffer : ℕ
  /-- Which bytes win where segments overlap. -/
  overlap_policy : TcpOverlapPolicy
  /-- Holes filled by a late segment. -/
  holes_filled : ℕ
  /-- Segments that differ from bytes still held. -/
  rexmit_inconsistencies : ℕ

namespace SegmentBufferReassembler

/-- A new reassembler with the given settings. -/
def new (config : Config) (max_ooo_buffer : ℕ) (overlap_policy : TcpOverlapPolicy) :
    SegmentBufferReassembler where
  toCore := .new config
  ooo := none
  max_ooo_buffer
  overlap_policy
  holes_filled := 0
  rexmit_inconsistencies := 0

/-- The bytes held out of order. -/
def bufferedOooBytes (s : SegmentBufferReassembler) : ℕ :=
  match s.ooo with
  | some o => o.bytes
  | none => 0

/-- The pieces held out of order. -/
def oooPieces (s : SegmentBufferReassembler) : ℕ :=
  match s.ooo with
  | some o => o.pieces.size
  | none => 0

/-- Where the first piece starts. -/
def firstStart (s : SegmentBufferReassembler) : Option ℕ := s.ooo.bind Ooo.firstStart

/-- Note the occupancy of the ready buffer and the store. -/
def updateWatermark (s : SegmentBufferReassembler) : SegmentBufferReassembler :=
  { s with toCore := s.toCore.updateWatermark s.bufferedOooBytes }

/-- Report a gap up to `off` and move the stream there. -/
def skipTo (s : SegmentBufferReassembler) (off : ℕ) (ts : Timestamp) : SegmentBufferReassembler :=
  { s with toCore := s.toCore.skipTo off ts }

/-- Append in-order bytes to the ready buffer, under its cap. -/
def appendReady (s : SegmentBufferReassembler) (bytes : List UInt8) : SegmentBufferReassembler :=
  if s.stop.isSome || bytes.isEmpty then s
  else
    match s.max_buffer with
    | none => { s with ready := s.ready.pushData bytes }.updateWatermark
    | some cap =>
      if s.ready.len + bytes.length ≤ cap then
        { s with ready := s.ready.pushData bytes }.updateWatermark
      else
        match s.overflow_policy with
        | .slidingWindow =>
          let drop := min (s.ready.len + bytes.length - cap) s.ready.len
          let s :=
            { s with
              bytes_dropped_oversize := s.bytes_dropped_oversize + drop
              ready := s.ready.dropFront drop }
          let extra := bytes.length - cap
          if cap < bytes.length then
            { s with
              bytes_dropped_oversize := s.bytes_dropped_oversize + extra
              ready := (s.ready.pushGap extra).pushData (bytes.drop extra) }.updateWatermark
          else { s with ready := s.ready.pushData bytes }.updateWatermark
        | .dropFlow =>
          { s with
            bytes_dropped_oversize := s.bytes_dropped_oversize + bytes.length
            stop := some .overflow
            ooo := none
            track := s.track.dropStray }

/-- Append the bytes of a piece; its buffer is taken over when nothing else is ready. -/
def appendReadyOwned (s : SegmentBufferReassembler) (bytes : List UInt8) :
    SegmentBufferReassembler :=
  let fits := match s.max_buffer with
    | some cap => decide (s.ready.len + bytes.length ≤ cap)
    | none => true
  if fits && s.stop.isNone && s.ready.isEmptyData then
    { s with ready := s.ready.pushOwned bytes }.updateWatermark
  else s.appendReady bytes

/-- Deliver the first piece if the stream reached it. Also whether one was delivered. -/
def deliverFirst (s : SegmentBufferReassembler) (ts : Timestamp) :
    SegmentBufferReassembler × Bool :=
  let next := s.track.next_off
  match s.ooo with
  | none => (s, false)
  | some o =>
    match o.pieces.first? with
    | none => (s, false)
    | some (start, d) =>
      if next < start then (s, false)
      else
        let end_ := start + d.len
        let o := o.remove start d
        let s := { s with ooo := if o.pieces.size = 0 then none else some o }
        if next < end_ then
          ({ s with track := s.track.advanceTo end_ ts }.appendReadyOwned
            (d.data.drop (next - start)), true)
        else (s, true)

def deliverAll (s : SegmentBufferReassembler) (ts : Timestamp) : Result SegmentBufferReassembler :=
  whileDo .divergence (fun s => (s.deliverFirst ts).2) (fun s => .ok (s.deliverFirst ts).1)
    s.oooPieces s

/-- Give up on the hole in front of the first piece. -/
def skipToFirst (s : SegmentBufferReassembler) (ts : Timestamp) : SegmentBufferReassembler :=
  match s.firstStart with
  | none => s
  | some first => ((s.skipTo first ts).deliverFirst ts).1

def flushOoo (s : SegmentBufferReassembler) (ts : Timestamp) : Result SegmentBufferReassembler :=
  whileDo .divergence (fun s => s.stop.isNone && s.ooo.isSome) (fun s => .ok (s.skipToFirst ts))
    s.oooPieces s

/-- What the store is charged. -/
def charged (s : SegmentBufferReassembler) : ℕ :=
  match s.ooo with
  | some o => o.charged
  | none => 0

/-- Skip holes until the store is within its budget. -/
def enforceOooCap (s : SegmentBufferReassembler) (ts : Timestamp) :
    Result SegmentBufferReassembler :=
  whileDo .divergence (fun s => s.stop.isNone && s.ooo.isSome && s.max_ooo_buffer < s.charged)
    (fun s => .ok (s.skipToFirst ts)) s.oooPieces s

/-- An acknowledged hole whose grace period is over: deliver every piece up to the frontier. -/
def checkEvidence (s : SegmentBufferReassembler) (now : Timestamp) :
    Result SegmentBufferReassembler :=
  match s.track.evidenceDue now s.rules.ack_grace with
  | none => return s
  | some frontier =>
    match s.firstStart with
    | some first =>
      if first ≤ frontier then
        whileDo .divergence (fun s => s.firstStart.any (· ≤ frontier) && s.stop.isNone)
          (fun s => .ok (s.skipToFirst now)) s.oooPieces
          { s with ack_confirmed_gaps := s.ack_confirmed_gaps + 1 }
      else return s
    | none => return { s with ack_confirmed_gaps := s.ack_confirmed_gaps + 1 }.skipTo frontier now

/-- Whether the first hole blocked the stream for too long, where `limit` is four deadlines. -/
def holeExpired (s : SegmentBufferReassembler) (now : Timestamp) (limit : Duration) : Bool :=
  match s.ooo with
  | none => false
  | some o =>
    let stalled := now.saturatingSub s.track.last_progress
    let corroborated := 2 ≤ o.arrivals || 2 ≤ o.pieces.size ||
      s.track.evidenceFrontier.any fun f => o.firstStart.any (· ≤ f)
    corroborated && s.rules.deadline < stalled || limit < stalled

/-- Deadlines and acknowledgements. Four times the deadline is computed on every path through the
function. -/
def checkTimers (s : SegmentBufferReassembler) (now : Timestamp) :
    Result SegmentBufferReassembler :=
  if s.stop.isSome then return s
  else do
    let s ← s.checkEvidence now
    let limit ← s.rules.deadline.mul 4
    let s := if s.holeExpired now limit then s.skipToFirst now else s
    return { s with track := s.track.expireStray now limit }

/-- Put a segment, at or past the stream position, into the store. -/
def absorb (s : SegmentBufferReassembler) (start : ℕ) (payload : List UInt8) :
    SegmentBufferReassembler :=
  let absorbed :=
    (s.ooo.getD Ooo.new).absorb s.overlap_policy s.max_ooo_buffer start payload
  { s with
    ooo := some absorbed.1
    rexmit_inconsistencies :=
      if absorbed.2.1 then s.rexmit_inconsistencies + 1 else s.rexmit_inconsistencies
    retransmits := if absorbed.2.2 then s.retransmits + 1 else s.retransmits }

/-- A segment that cannot be delivered at once: hold it, deliver what the stream reached, and keep
to the budget. -/
def takeIn (s : SegmentBufferReassembler) (start : ℕ) (data : List UInt8) (ts : Timestamp) :
    Result SegmentBufferReassembler := do
  let next := s.track.next_off
  let was_blocked := s.ooo.isSome
  -- a hole opens now
  let s := if was_blocked then s else { s with track.last_progress := ts }
  let s := s.absorb start data
  let s :=
    if start = next ∧ was_blocked then { s with holes_filled := s.holes_filled + 1 } else s
  let s ← s.deliverAll ts
  let s ← s.enforceOooCap ts
  return s.updateWatermark

/-- A segment that reaches past the stream position and starts in the window. -/
def feedNew (s : SegmentBufferReassembler) (start : ℤ) (payload : List UInt8) (ts : Timestamp)
    (pass : Bool) : Result (SegmentBufferReassembler × SegmentOutcome) := do
  let next := s.track.next_off
  -- head already delivered, tail new
  let s := if start < next then { s with retransmits := s.retransmits + 1 } else s
  let skip := (next - start).toNat
  let start := (max start next).toNat
  let data := payload.drop skip
  if s.ooo.isNone ∧ start = next then
    let s := { s with track := s.track.advanceTo (start + data.length) ts }
    if pass && s.ready.isEmpty && s.max_buffer.all (data.length ≤ ·) then
      return ({ s with toCore := s.toCore.notePassthrough data.length }, .passthrough skip)
    else
      return (← (s.appendReady data).checkTimers ts, .buffered)
  else
    let s ← s.takeIn start data ts
    return (← s.checkTimers ts, .buffered)

/-- The stream goes on at a candidate, where `feed` takes in its bytes. -/
def resync (feed : SegmentBufferReassembler → Seq → List UInt8 → Timestamp → Bool →
      Result (SegmentBufferReassembler × SegmentOutcome))
    (s : SegmentBufferReassembler) (c : Candidate) (ts : Timestamp) :
    Result SegmentBufferReassembler := do
  let s ← s.flushOoo ts
  let s := s.skipTo c.off ts
  let (s, _) ← feed s (s.track.seqOf c.off) c.data ts false
  return if s.stop.isNone then s.skipTo c.end_ ts else s

def feed : ℕ → SegmentBufferReassembler → Seq → List UInt8 → Timestamp → Bool →
    Result (SegmentBufferReassembler × SegmentOutcome)
  | 0, _, _, _, _, _ => .error .recursion
  | depth + 1, s, seq, payload, ts, pass =>
    if s.stop.isSome || payload.isEmpty then return (s, .buffered)
    else do
      let s := { s with track := s.track.anchor seq ts }
      let start : ℤ := s.track.offsetOf seq
      let end_ := start + payload.length
      let next : ℤ := s.track.next_off
      let max_ahead := asI64 s.rules.max_ahead
      if max_ahead < start - next then
        match s.track.farAhead (asU64 start) payload ts s.rules.max_ahead with
        | (track, .resync c) =>
          let s ← resync (feed depth) { s with track } c ts
          feed depth s seq payload ts false
        | (track, .held) => return ({ s with track }, .buffered)
      else if end_ ≤ next then
        return (← { s with toCore := s.toCore.noteOld start end_ }.checkTimers ts, .buffered)
      else s.feedNew start payload ts pass

def segment (s : SegmentBufferReassembler) (seq : Seq) (payload : List UInt8) (ts : Timestamp) :
    Result SegmentBufferReassembler := do return (← s.feed nesting seq payload ts false).1

def segmentInto (s : SegmentBufferReassembler) (seq : Seq) (payload : List UInt8)
    (ts : Timestamp) : Result (SegmentBufferReassembler × SegmentOutcome) :=
  s.feed nesting seq payload ts true

def setOrigin (s : SegmentBufferReassembler) (seq : Seq) : SegmentBufferReassembler :=
  { s with track := s.track.anchor seq Timestamp.zero }

/-- What an ACK, a FIN or cut bytes proved: the stream goes on at the candidate that they
corroborated, if any. -/
def useEvidence (s : SegmentBufferReassembler) (proved : Track × Option Candidate)
    (ts : Timestamp) : Result SegmentBufferReassembler :=
  match proved with
  | (track, some c) => resync (feed nesting) { s with track } c ts
  | (track, none) => return { s with track }

def peerAck (s : SegmentBufferReassembler) (ack : Seq) (ts : Timestamp) :
    Result SegmentBufferReassembler :=
  if s.stop.isSome then return s
  else do
    let s ← s.useEvidence (s.track.recordEvidence (ack - 1) ts s.rules.max_ahead) ts
    s.checkTimers ts

def finSeen (s : SegmentBufferReassembler) (end_ : Seq) (ts : Timestamp) :
    Result SegmentBufferReassembler :=
  if s.stop.isSome then return s
  else s.useEvidence (s.track.fin end_ ts s.rules.max_ahead) ts

/-- One iteration of the loop of `missing`: skip up to the next piece, or to the end of the cut
bytes, and deliver. -/
def skipMissing (s : SegmentBufferReassembler) (end_ : ℕ) (ts : Timestamp) :
    Result SegmentBufferReassembler :=
  let to_ := match s.firstStart with
    | some first => min first end_
    | none => end_
  (s.skipTo to_ ts).deliverAll ts

/-- Cut bytes that the stream has reached: skip them, delivering what falls inside them. -/
def skipCut (s : SegmentBufferReassembler) (end_ : ℕ) (ts : Timestamp) :
    Result SegmentBufferReassembler := do
  let s ← whileDo .divergence (fun s => s.stop.isNone && s.track.next_off < end_)
    (fun s => s.skipMissing end_ ts) (s.oooPieces + 1) s
  return s.updateWatermark

def missingFrom : ℕ → SegmentBufferReassembler → Seq → Seq → Timestamp →
    Result SegmentBufferReassembler
  | 0, _, _, _, _ => .error .recursion
  | depth + 1, s, seq, len, ts =>
    if s.stop.isSome || len = 0 then return s
    else do
      let s := { s with track := s.track.anchor seq ts }
      let start : ℤ := s.track.offsetOf seq
      let end_ := start + len.toNat
      let next : ℤ := s.track.next_off
      if end_ ≤ next then return s
      else if asI64 s.rules.max_ahead < start - next then
        match s.track.farMissing (asU64 start) len.toNat ts s.rules.max_ahead with
        | (track, some c) =>
          let s ← resync (feed nesting) { s with track } c ts
          missingFrom depth s seq len ts
        | (track, none) => checkTimers { s with track } ts
      else if start ≤ next then
        let s ← s.skipCut end_.toNat ts
        s.checkTimers ts
      else
        let s ← s.useEvidence (s.track.recordEvidence (seq + len) ts s.rules.max_ahead) ts
        s.checkTimers ts

/-- `missing`, with the budget of nested calls. -/
def missing (s : SegmentBufferReassembler) (seq len : Seq) (ts : Timestamp) :
    Result SegmentBufferReassembler := s.missingFrom nesting seq len ts

def drainInto (s : SegmentBufferReassembler) (out : StreamChunks) :
    SegmentBufferReassembler × StreamChunks :=
  let drained := s.toCore.drainInto out
  ({ s with toCore := drained.1 }, drained.2)

def flushPending (s : SegmentBufferReassembler) : Result SegmentBufferReassembler := do
  let ts := s.track.last_progress
  let s ← s.flushOoo ts
  let s := match s.track.evidenceFrontier with
    | some frontier =>
      if s.stop.isNone then
        { s with ack_confirmed_gaps := s.ack_confirmed_gaps + 1 }.skipTo frontier ts
      else s
    | none => s
  return { s with track := s.track.dropStray }

def take (s : SegmentBufferReassembler) : List UInt8 × SegmentBufferReassembler :=
  let taken := s.toCore.take
  (taken.1, { s with toCore := taken.2 })

def release (s : SegmentBufferReassembler) : SegmentBufferReassembler :=
  { s with toCore := s.toCore.release, ooo := none }

def currentBytes (s : SegmentBufferReassembler) : ℕ :=
  s.ready.len + s.charged + s.track.heapBytes

instance : Reassembler SegmentBufferReassembler where
  segment
  segmentInto
  setOrigin
  peerAck
  finSeen
  missing
  drainInto
  flushPending
  advanceTime := checkTimers
  take
  release
  currentBytes

end SegmentBufferReassembler

end Flowscope
