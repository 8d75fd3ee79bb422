import Flowscope.Flow.Stream

/-!
# The flow driver

`FlowDriver` of `src/flow_driver.rs`: a tracker, and for each TCP flow the reassemblers of its two
sides. The driver hands the segments of a packet to them, keeps count of the bytes that all of them
hold (the pool), reports what they find odd, and lets go of them when their flow ends.

The hash map of the flows is a table, of which the order is not specified. A callback that gets the
data of a sweep has no access to the driver, so that a sweep returns the data along with the events.
Duplicate detection (`src/dedup.rs`) decides about a packet by those that came before.
-/

namespace Flowscope

/-- Duplicate detection. -/
structure Dedup where
  /-- Whether a packet is kept after those that were seen before. -/
  decides : List PacketView → PacketView → Bool
  seen : List PacketView

def Dedup.keep (d : Dedup) (view : PacketView) : Dedup × Bool :=
  ({ d with seen := d.seen ++ [view] }, d.decides d.seen view)

/-- What a driver knows of the last packet. -/
structure PacketInfo (K : Type) where
  key : K
  side : FlowSide
  orientation : Orientation
  l4 : Option L4Proto
  tcp : Option TcpInfo
  l4_meta : Option L4Meta
  ts : Timestamp
  is_new : Bool
  /-- How many bytes of the payload to skip, if the reassembler let the rest through. -/
  passthrough : Option ℕ

def PacketContext.info {K : Type} (p : PacketContext K) (passthrough : Option ℕ) :
    PacketInfo K where
  key := p.key
  side := p.side
  orientation := p.orientation
  l4 := p.l4
  tcp := p.tcp
  l4_meta := p.l4_meta
  ts := p.ts
  is_new := p.is_new
  passthrough

structure FlowDriver (Φ K R : Type) where
  tracker : FlowTracker K
  factory : Φ
  streams : Table K (StreamFlow R)
  emit_anomalies : Bool
  dedup : Option Dedup
  /-- The latest time, where times are not to go back. -/
  monotonic_ts : Option Timestamp
  max_ts : Timestamp
  /-- What all reassemblers are accounted for. -/
  global_memcap_bytes : ℕ
  last_packet : Option (PacketInfo K)
  last_tick_scan : Option Timestamp
  passthrough : Bool
  /-- How many of the tracker's flows were seen to go. -/
  seen_gone : ℕ

/-! ## A TCP packet -/

/-- The settings of the driver that are read for a TCP packet. -/
structure TcpFeed where
  passthrough : Bool
  emit_anomalies : Bool
  memcap_cap : Option ℕ
  memcap_policy : MemcapPolicy

/-- The stream data of a packet. -/
structure TcpData where
  seq : Seq
  payload : List UInt8
  /-- The length on the wire. -/
  wire : ℕ

/-- The data of a SYN starts one past its sequence number, and the payload of a RST is no data. -/
def tcpData {K : Type} (p : PacketContext K) (tcp : TcpInfo) : TcpData :=
  let payload := if tcp.flags.rst then [] else p.tcp_payload
  { seq := if tcp.flags.syn then tcp.seq + 1 else tcp.seq
    payload
    wire := if tcp.flags.rst then 0 else max tcp.wire_payload_len payload.length }

/-- The capture cut the data. -/
def TcpData.truncated (data : TcpData) : Bool := data.payload.length < data.wire

/-- Where the FIN of the packet is. -/
def TcpData.finEnd (data : TcpData) (tcp : TcpInfo) : Option Seq :=
  if tcp.flags.fin then some (data.seq + BitVec.ofNat 32 data.wire) else none

/-- A packet while it is handed to the reassemblers of its flow. -/
structure FeedState (Φ R : Type) where
  flow : StreamFlow R
  factory : Φ
  /-- The pool. -/
  global : ℕ
  /-- The pool when it was first found to be too large. -/
  tripped : Option ℕ
  kinds : List AnomalyKind
  pass : Option ℕ

namespace FeedState

variable {Φ K R : Type} [SideReassembler R]

def slot (s : FeedState Φ R) (side : FlowSide) : SideSlot R := s.flow.sides.get side

def setSlot (s : FeedState Φ R) (side : FlowSide) (slot : SideSlot R) : FeedState Φ R :=
  { s with flow.sides := s.flow.sides.set side slot }

/-- `resync`: account for what the reassembler of a side holds now. -/
def resync (s : FeedState Φ R) (side : FlowSide) (accounted : ℕ) (r : R) : FeedState Φ R :=
  let current := Reassembler.currentBytes r
  { s.setSlot side (.live ⟨r, current⟩) with global := s.global - accounted + current }

def release (s : FeedState Φ R) (side : FlowSide) : FeedState Φ R :=
  let released := tombstone (s.slot side) (some .memcap)
  { s.setSlot side released.1 with global := s.global - released.2 }

/-- The peer's ACK tells which bytes of the other side were delivered. -/
def ackPeer (s : FeedState Φ R) (cfg : TcpFeed) (side : FlowSide) (tcp : TcpInfo)
    (ts : Timestamp) : Result (FeedState Φ R) :=
  match tcp.flags.ack, s.slot side.opposite with
  | true, .live l => do
    let r ← Reassembler.peerAck l.r tcp.ack ts
    let s := s.resync side.opposite l.accounted r
    return { s with
      kinds := s.kinds ++ anomaliesSince cfg.emit_anomalies l.r r side.opposite }
  | _, _ => return s

/-- The FIN of a packet without data. -/
def finOnly (s : FeedState Φ R) (side : FlowSide) (fin_end : Option Seq) (ts : Timestamp) :
    Result (FeedState Φ R) :=
  match fin_end, s.slot side with
  | some end_, .live l => do
    let r ← Reassembler.finSeen l.r end_ ts
    return s.resync side l.accounted r
  | _, _ => return s

/-- Make a reassembler for a side that has none yet. -/
def openSide [ReassemblerFactory Φ K R] (s : FeedState Φ R) (key : K) (side : FlowSide) :
    FeedState Φ R :=
  match s.slot side with
  | .empty =>
    let made := ReassemblerFactory.newReassembler s.factory key side
    let r := match s.flow.origin.get side with
      | some origin => Reassembler.setOrigin made.1 origin
      | none => made.1
    { s.setSlot side (.live ⟨r, 0⟩) with factory := made.2 }
  | _ => s

end FeedState

section

variable {R : Type} [SideReassembler R]

/-- Hand a segment to the reassembler. What the capture cut is reported as missing, and such a
segment is never let through. -/
def feedSegment (passthrough : Bool) (data : TcpData) (ts : Timestamp) (r : R) :
    Result (R × SegmentOutcome) :=
  if passthrough && !data.truncated then Reassembler.segmentInto r data.seq data.payload ts
  else do
    let r ← if data.payload.isEmpty then .ok r
      else Reassembler.segment r data.seq data.payload ts
    let r ← if data.truncated then
        Reassembler.missing r (data.seq + BitVec.ofNat 32 data.payload.length)
          (BitVec.ofNat 32 (min (data.wire - data.payload.length) (2^32 - 1))) ts
      else .ok r
    return (r, .buffered)

/-- Hand the data of a packet to the reassembler, and then its FIN. -/
def feedData (passthrough : Bool) (data : TcpData) (fin_end : Option Seq) (ts : Timestamp) (r : R) :
    Result (R × SegmentOutcome) := do
  let fed ← feedSegment passthrough data ts r
  match fin_end with
  | some end_ => return (← Reassembler.finSeen fed.1 end_ ts, fed.2)
  | none => return fed

end

namespace FeedState

variable {Φ K R : Type} [SideReassembler R]

/-- The pool is too large, and the policy reclaims memory. -/
def enforceMemcap (s : FeedState Φ R) (cfg : TcpFeed) (side : FlowSide) : FeedState Φ R :=
  match cfg.memcap_cap with
  | none => s
  | some cap =>
    if s.global ≤ cap then s
    else
      let s := { s with tripped := s.tripped.or (some s.global) }
      match cfg.memcap_policy with
      | .ignore | .dropPacket => s
      | .passThrough => s.release side
      | .dropFlow => (s.release side).release side.opposite

/-- The segment would push the pool past its cap, and the policy refuses it. -/
def refuses (s : FeedState Φ R) (cfg : TcpFeed) (data : TcpData) : Bool :=
  decide (cfg.memcap_policy = .dropPacket) &&
    cfg.memcap_cap.any fun cap => cap < s.global + data.payload.length

/-- Hand the data of a packet to the reassembler of its side. -/
def deliver (s : FeedState Φ R) (cfg : TcpFeed) (side : FlowSide) (data : TcpData)
    (fin_end : Option Seq) (ts : Timestamp) : Result (FeedState Φ R) :=
  match s.slot side with
  | .live l =>
    -- a consumer may have drained the side since the last segment
    let s := s.resync side l.accounted l.r
    if s.refuses cfg data then return { s with tripped := s.tripped.or (some s.global) }
    else do
      let fed ← feedData cfg.passthrough data fin_end ts l.r
      let s := s.resync side (Reassembler.currentBytes l.r) fed.1
      let s :=
        { s with
          kinds := s.kinds ++ anomaliesSince cfg.emit_anomalies l.r fed.1 side
          pass := match fed.2 with
            | .passthrough skip => some skip
            | .buffered => none }
      return s.enforceMemcap cfg side
  -- discarded or released
  | _ => return s

def feedFlow [ReassemblerFactory Φ K R] (s : FeedState Φ R) (cfg : TcpFeed) (p : PacketContext K)
    (tcp : TcpInfo) : Result (FeedState Φ R) := do
  let data := tcpData p tcp
  let s :=
    if tcp.flags.syn then { s with flow.origin := s.flow.origin.set p.side (some data.seq) } else s
  let s ← s.ackPeer cfg p.side tcp p.ts
  if data.wire = 0 then s.finOnly p.side (data.finEnd tcp) p.ts
  else (s.openSide p.key p.side).deliver cfg p.side data (data.finEnd tcp) p.ts

end FeedState

namespace FlowDriver

variable {Φ K R : Type}

def fromTracker [ReassemblerFactory Φ K R] (tracker : FlowTracker K) (factory : Φ) :
    FlowDriver Φ K R where
  tracker := tracker.setDriverOwned true
  factory := ReassemblerFactory.applyConfig K factory tracker.config
  streams := ∅
  emit_anomalies := false
  dedup := none
  monotonic_ts := none
  max_ts := .zero
  global_memcap_bytes := 0
  last_packet := none
  last_tick_scan := none
  passthrough := false
  seen_gone := tracker.stats.flows_ended + tracker.forgotten

def setConfig [ReassemblerFactory Φ K R] (d : FlowDriver Φ K R) (config : FlowTrackerConfig) :
    FlowDriver Φ K R :=
  { d with
    factory := ReassemblerFactory.applyConfig K d.factory config
    tracker := d.tracker.setConfig config }

/-- A time, not before those that were seen. -/
def clampNow (d : FlowDriver Φ K R) (now : Timestamp) : FlowDriver Φ K R × Timestamp :=
  match d.monotonic_ts with
  | none => (d, now)
  | some last => ({ d with monotonic_ts := some (last.max now) }, last.max now)

/-- Whether an event is reported. The other kinds are up to the tracker. -/
def emits (d : FlowDriver Φ K R) (ev : FlowEvent K) : Bool :=
  match ev.kind with
  | .ended | .flowAnomaly | .trackerAnomaly | .tick =>
    !d.tracker.events_paused && decide (ev.kind ∉ d.tracker.config.suppress_events)
  | _ => true

/-- The flows that end are gone. -/
def noteGone (d : FlowDriver Φ K R) (events : List (FlowEvent K)) : FlowDriver Φ K R :=
  { d with seen_gone := d.seen_gone + events.countP fun ev => ev.ending.isSome }

/-- Flows were displaced since so many had been. -/
def evictionPressure (d : FlowDriver Φ K R) (evicted_before : ℕ) (ts : Timestamp) :
    List (FlowEvent K) :=
  let total := d.tracker.stats.flows_evicted
  if 0 < total - evicted_before then
    [.trackerAnomaly (.flowTableEvictionPressure (total - evicted_before) total) ts]
  else []

def tcpFeed (d : FlowDriver Φ K R) : TcpFeed where
  passthrough := d.passthrough
  emit_anomalies := d.emit_anomalies
  memcap_cap := d.tracker.config.reassembly_memcap
  memcap_policy := d.tracker.config.reassembly_memcap_policy

variable [DecidableEq K]

/-- Let go of a flow, and refund it. -/
def dropStream (d : FlowDriver Φ K R) (key : K) : FlowDriver Φ K R :=
  match d.streams.lookup key with
  | none => d
  | some flow =>
    { d with
      streams := d.streams.erase key
      global_memcap_bytes := d.global_memcap_bytes - flow.sides.initiator.accounted -
        flow.sides.responder.accounted }

/-- The flow of an `ended` event that the caller was done with. -/
def finalizeFlow (d : FlowDriver Φ K R) (key : K) : FlowDriver Φ K R := d.dropStream key

/-- Let go of the flows of `ended` events. -/
def finalize (d : FlowDriver Φ K R) (events : List (FlowEvent K)) : FlowDriver Φ K R :=
  events.foldl (fun d ev =>
    match ev.ending with
    | some (key, _) => d.finalizeFlow key
    | none => d) d

/-- Flows that the tracker lost behind the driver's back are let go of. -/
def reconcile (d : FlowDriver Φ K R) : FlowDriver Φ K R :=
  let gone := d.tracker.stats.flows_ended + d.tracker.forgotten
  if gone = d.seen_gone then d
  else
    (d.streams.keys.filter fun key => !d.tracker.flows.contains key).foldl dropStream
      { d with seen_gone := gone }

/-- Put events right before the end of the packet's own flow, or else last. -/
def placeBeforeEnd (key : Option K) (events extra : List (FlowEvent K)) : List (FlowEvent K) :=
  let at_ := match key with
    | some key => events.findIdx fun ev => decide (ev.ending.map Prod.fst = some key)
    | none => events.length
  events.take at_ ++ extra ++ events.drop at_

variable [SideReassembler R]

/-- The statistics of a live flow, with what its reassemblers have counted. -/
def liveStats (d : FlowDriver Φ K R) (key : K) (base : FlowStats) : FlowStats :=
  match d.streams.lookup key with
  | none => base
  | some flow =>
    foldSlot (foldSlot base .initiator flow.sides.initiator) .responder flow.sides.responder

/-- Report the flows that were not reported for an interval. -/
def emitTicks (d : FlowDriver Φ K R) (now : Timestamp) (interval : Duration) :
    FlowDriver Φ K R × List (FlowEvent K) :=
  if d.last_tick_scan.any fun last => decide (now.saturatingSub last < interval / 4) then (d, [])
  else
    let due := d.tracker.flows.iter.filter fun f =>
      match f.2.last_tick_at with
      | none => true
      | some last => interval ≤ now.saturatingSub last
    ({ d with
        last_tick_scan := some now
        tracker := (due.map Prod.fst).foldl (fun t key => t.markTicked key now) d.tracker },
      due.map fun f => .tick f.1 (d.liveStats f.1 f.2.stats) now)

/-- Ticks after a packet, if they are reported. -/
def ticks (d : FlowDriver Φ K R) (ts : Timestamp) : FlowDriver Φ K R × List (FlowEvent K) :=
  match d.tracker.config.flow_tick_interval with
  | some interval =>
    if !d.tracker.events_paused && decide (EventKind.tick ∉ d.tracker.config.suppress_events) then
      d.emitTicks ts interval
    else (d, [])
  | none => (d, [])

/-! ## The end of a flow -/

/-- Flush the reassembler of a slot. What it holds is not accounted for anew. -/
def flushSlot (emit : Bool) (side : FlowSide) :
    SideSlot R → Result (SideSlot R × List AnomalyKind)
  | .live l => do
    let r ← Reassembler.flushPending l.r
    return (.live { l with r }, anomaliesSince emit l.r r side)
  | slot => return (slot, [])

/-- Flush a flow that ended, and complete its statistics. Also the anomalies of the flush. -/
def closeFlow (d : FlowDriver Φ K R) (key : K) (stats : FlowStats) :
    Result (FlowDriver Φ K R × FlowStats × List (FlowEvent K)) :=
  match d.streams.lookup key with
  | none => return (d, stats, [])
  | some flow => do
    let i ← flushSlot d.emit_anomalies .initiator flow.sides.initiator
    let r ← flushSlot d.emit_anomalies .responder flow.sides.responder
    return ({ d with streams := d.streams.put key { flow with sides := ⟨i.1, r.1⟩ } },
      foldSlot (foldSlot stats .initiator i.1) .responder r.1,
      (i.2 ++ r.2).map fun kind => .flowAnomaly key kind stats.last_seen)

/-- What is reported of one event. A flow whose end is not reported is let go of at once. -/
def closeEvent (d : FlowDriver Φ K R) : FlowEvent K → Result (FlowDriver Φ K R × List (FlowEvent K))
  | .ended key reason stats history l4 => do
    let (d, stats, flush) ← d.closeFlow key stats
    let ev := .ended key reason stats history l4
    if d.emits ev then return (d, flush.filter d.emits ++ [ev])
    else return (d.finalizeFlow key, flush.filter d.emits)
  | ev => return (d, if d.emits ev then [ev] else [])

def closeAll (d : FlowDriver Φ K R) :
    List (FlowEvent K) → Result (FlowDriver Φ K R × List (FlowEvent K))
  | [] => return (d, [])
  | ev :: rest => do
    let (d, evs) ← d.closeEvent ev
    let (d, evs') ← d.closeAll rest
    return (d, evs ++ evs')

/-! ## Sweeps -/

/-- What a sweep releases of one side. -/
structure Released (K : Type) where
  key : K
  side : FlowSide
  orientation : Orientation
  ports : Option (UInt16 × UInt16)
  anomalies : List (FlowEvent K)
  data : Option StreamChunks

/-- Let time pass for a slot, and drain it if asked to. Also the pool, the anomalies and the data. -/
def advanceSlot (emit : Bool) (now : Timestamp) (drain : Bool) (global : ℕ) (side : FlowSide) :
    SideSlot R → Result (SideSlot R × ℕ × List AnomalyKind × Option StreamChunks)
  | .live l => do
    let r ← Reassembler.advanceTime l.r now
    let kinds := anomaliesSince emit l.r r side
    if drain then
      let drained := Reassembler.drainInto r .new
      let current := Reassembler.currentBytes drained.1
      return (.live ⟨drained.1, current⟩, global - l.accounted + current, kinds, some drained.2)
    else return (.live { l with r }, global, kinds, none)
  | slot => return (slot, global, [], none)

/-- What a sweep releases of a side, if anything. -/
def released (key : K) (side : FlowSide) (orientation : Orientation)
    (ports : Option (UInt16 × UInt16)) (now : Timestamp) (kinds : List AnomalyKind)
    (data : Option StreamChunks) : List (Released K) :=
  if kinds.isEmpty && data.all StreamChunks.isEmpty then []
  else
    [{ key, side, orientation, ports, anomalies := kinds.map fun kind => .flowAnomaly key kind now
       data }]

/-- Let time pass for a flow that the tracker holds. -/
def advanceFlow (d : FlowDriver Φ K R) (now : Timestamp) (drain : Bool) (key : K) :
    Result (FlowDriver Φ K R × List (Released K)) :=
  match d.streams.lookup key, d.tracker.flows.peek key with
  | some flow, some entry => do
    let initiator := entry.initiator_orientation
    let (i, global, kinds, data) ←
      advanceSlot d.emit_anomalies now drain d.global_memcap_bytes .initiator flow.sides.initiator
    let (r, global, kinds', data') ←
      advanceSlot d.emit_anomalies now drain global .responder flow.sides.responder
    return ({ d with
        streams := d.streams.put key { flow with sides := ⟨i, r⟩ }
        global_memcap_bytes := global },
      released key .initiator initiator flow.ports now kinds data ++
        released key .responder initiator.flipped flow.ports now kinds' data')
  | _, _ => return (d, [])

/-- Let time pass for flows, one after the other. -/
def advanceFlows (d : FlowDriver Φ K R) (now : Timestamp) (drain : Bool) :
    List K → Result (FlowDriver Φ K R × List (Released K))
  | [] => return (d, [])
  | key :: keys => do
    let (d, out) ← d.advanceFlow now drain key
    let (d, out') ← d.advanceFlows now drain keys
    return (d, out ++ out')

/-- Let time pass for all flows. -/
def advanceStreams (d : FlowDriver Φ K R) (now : Timestamp) (drain : Bool) :
    Result (FlowDriver Φ K R × List (Released K)) :=
  let d := d.reconcile
  d.advanceFlows now drain d.streams.keys

omit [SideReassembler R] in
/-- Sweep the tracker. -/
def sweepRaw (d : FlowDriver Φ K R) (now stamp : Timestamp) :
    FlowDriver Φ K R × List (FlowEvent K) :=
  let evicted_before := d.tracker.stats.flows_evicted
  let swept := d.tracker.sweep now
  let d := { d with tracker := swept.1 }
  let events := swept.2 ++ if d.emit_anomalies then d.evictionPressure evicted_before stamp else []
  (d.noteGone events, events)

/-- A sweep, with the data that it releases if asked to, before the flows that it ends are let go
of. -/
def sweepPending (d : FlowDriver Φ K R) (now : Timestamp) (drain : Bool) :
    Result (FlowDriver Φ K R × List (FlowEvent K) × List (Released K)) := do
  let (d, now) := d.clampNow now
  let (d, out) ← d.advanceStreams now drain
  let (d, events) := d.sweepRaw now now
  let (d, events) ← d.closeAll (out.flatMap Released.anomalies ++ events)
  return (d, events, out)

def sweep (d : FlowDriver Φ K R) (now : Timestamp) :
    Result (FlowDriver Φ K R × List (FlowEvent K)) := do
  let (d, events, _) ← d.sweepPending now false
  return (d.finalize events, events)

/-- The end of the input. -/
def finish (d : FlowDriver Φ K R) : Result (FlowDriver Φ K R × List (FlowEvent K)) := do
  let (d, events) := d.sweepRaw .MAX d.max_ts
  let (d, events) ← d.closeAll events
  return (d.finalize events, events)

omit [SideReassembler R] in
def forceCloseRaw (d : FlowDriver Φ K R) (key : K) (now : Timestamp) :
    FlowDriver Φ K R × List (FlowEvent K) :=
  let d := (d.clampNow now).1
  match d.tracker.forceClose key with
  | (tracker, some ended) => ({ d with tracker, seen_gone := d.seen_gone + 1 }, [ended])
  | (_, none) => (d, [])

/-- End a flow and let go of it. -/
def forceClose (d : FlowDriver Φ K R) (key : K) (now : Timestamp) :
    Result (FlowDriver Φ K R × List (FlowEvent K)) := do
  let (d, events) := d.forceCloseRaw key now
  let (d, events) ← d.closeAll events
  return (d.finalize events, events)

/-! ## Packets -/

/-- What came of handing a packet to the reassemblers of its flow. -/
structure Fed (K : Type) where
  tripped : Option ℕ
  kinds : List AnomalyKind
  info : Option (PacketInfo K)

omit [DecidableEq K] [SideReassembler R] in
/-- Whether duplicate detection keeps a packet. -/
def keepPacket (d : FlowDriver Φ K R) (view : PacketView) : FlowDriver Φ K R × Bool :=
  match d.dedup with
  | some dedup => ({ d with dedup := some (dedup.keep view).1 }, (dedup.keep view).2)
  | none => (d, true)

/-- Hand a TCP packet to the reassemblers of its flow. A flow comes to have some with a SYN or with
data, if it is wanted. Also what was noted on the way. -/
def feedTcp [ReassemblerFactory Φ K R] (d : FlowDriver Φ K R) (want : PacketContext K → Bool)
    (p : PacketContext K) (tcp : TcpInfo) :
    Result (FlowDriver Φ K R × Option ℕ × List AnomalyKind × Option ℕ) :=
  let flow := match d.streams.lookup p.key with
    | some flow => some flow
    | none =>
      if (tcp.flags.syn || 0 < (tcpData p tcp).wire) && want p then some (StreamFlow.new p.ports)
      else none
  match flow with
  | none => return (d, none, [], none)
  | some flow => do
    let s : FeedState Φ R := ⟨flow, d.factory, d.global_memcap_bytes, none, [], none⟩
    let s ← s.feedFlow d.tcpFeed p tcp
    return ({ d with
        streams := d.streams.put p.key s.flow
        factory := s.factory
        global_memcap_bytes := s.global }, s.tripped, s.kinds, s.pass)

/-- Hand a packet to the reassemblers of its flow. What is left of an earlier flow with the same key
is let go of. -/
def feedPacket [ReassemblerFactory Φ K R] (d : FlowDriver Φ K R) (want : PacketContext K → Bool) :
    Option (PacketContext K) → Result (FlowDriver Φ K R × Fed K)
  | none => return (d, ⟨none, [], none⟩)
  | some p => do
    let d := if p.is_new then d.dropStream p.key else d
    let (d, tripped, kinds, pass) ← match p.tcp with
      | some tcp => d.feedTcp want p tcp
      | none => .ok (d, none, [], none)
    return (d, ⟨tripped, kinds, some (p.info pass)⟩)

omit [DecidableEq K] [SideReassembler R] in
/-- The anomalies of a packet. -/
def extraEvents (d : FlowDriver Φ K R) (fed : Fed K) (evicted_before : ℕ) (ts : Timestamp) :
    List (FlowEvent K) :=
  if d.emit_anomalies then
    (match fed.info with
      | some p => fed.kinds.map fun kind => .flowAnomaly p.key kind ts
      | none => []) ++
    (match fed.tripped, d.tracker.config.reassembly_memcap with
      | some bytes_in_flight, some cap =>
        [.trackerAnomaly (.globalMemcapHit bytes_in_flight cap
          d.tracker.config.reassembly_memcap_policy) ts]
      | _, _ => []) ++
    d.evictionPressure evicted_before ts
  else []

/-- A packet that duplicate detection has kept, at a time that is not before the others. -/
def trackKept [ReassemblerFactory Φ K R] (d : FlowDriver Φ K R) (want : PacketContext K → Bool)
    (view : PacketView) : Result (FlowDriver Φ K R × List (FlowEvent K)) := do
  let ts := view.timestamp
  let d := { d with max_ts := d.max_ts.max ts }
  let evicted_before := d.tracker.stats.flows_evicted
  let (tracker, events, p) ← d.tracker.trackWith view
  let (d, fed) ← { d with tracker }.feedPacket want p
  let events := placeBeforeEnd (fed.info.map PacketInfo.key) events
    (d.extraEvents fed evicted_before ts)
  let d := { d with last_packet := fed.info }.noteGone events
  let (d, ticked) := d.ticks ts
  return (d, events ++ ticked)

/-- A packet, before what it ends is closed. -/
def trackRaw [ReassemblerFactory Φ K R] (d : FlowDriver Φ K R) (want : PacketContext K → Bool)
    (view : PacketView) : Result (FlowDriver Φ K R × List (FlowEvent K)) :=
  match { d with last_packet := none }.keepPacket view with
  | (d, false) => return (d, [])
  | (d, true) =>
    let clamped := d.clampNow view.timestamp
    clamped.1.trackKept want { view with timestamp := clamped.2 }

/-- A packet, before the flows that it ends are let go of. -/
def trackPending [ReassemblerFactory Φ K R] (d : FlowDriver Φ K R) (view : PacketView) :
    Result (FlowDriver Φ K R × List (FlowEvent K)) := do
  let (d, events) ← d.trackRaw (fun _ => true) view
  d.closeAll events

/-- A packet, and the sweep that is due after it. -/
def track [ReassemblerFactory Φ K R] (d : FlowDriver Φ K R) (view : PacketView) :
    Result (FlowDriver Φ K R × List (FlowEvent K)) := do
  let (d, events) ← d.trackPending view
  let d := d.finalize events
  match d.last_packet with
  | some p =>
    if d.tracker.autoSweepDue p.ts then
      let (d, swept) ← d.sweep p.ts
      return (d, events ++ swept)
    else return (d, events)
  | none => return (d, events)

/-! ## The consumer -/

/-- Take the output of a side. Also whether there was anything to report. -/
def drainStream (d : FlowDriver Φ K R) (key : K) (side : FlowSide) (out : StreamChunks) :
    FlowDriver Φ K R × StreamChunks × Bool :=
  match d.streams.lookup key with
  | none => (d, out, false)
  | some flow =>
    match flow.sides.get side with
    | .empty => (d, out, false)
    | .live l =>
      let drained := Reassembler.drainInto l.r out
      let current := Reassembler.currentBytes drained.1
      let sides := flow.sides.set side (.live ⟨drained.1, current⟩)
      ({ d with
          streams := d.streams.put key { flow with sides }
          global_memcap_bytes := d.global_memcap_bytes - l.accounted + current }, drained.2, true)
    | .done stats stop reported =>
      if reported then (d, out, false)
      else
        let sides := flow.sides.set side (.done stats stop true)
        ({ d with streams := d.streams.put key { flow with sides } },
          match stop with
          | some stop => out.setStop stop
          | none => out, true)

/-- Reassemble a side no more. -/
def discardSide (d : FlowDriver Φ K R) (key : K) (side : FlowSide) : FlowDriver Φ K R :=
  let flow := (d.streams.lookup key).getD (.new none)
  let released := tombstone (flow.sides.get side) none
  let slot := match released.1 with
    | .done stats stop _ => .done stats stop true
    | slot => slot
  { d with
    streams := d.streams.put key { flow with sides := flow.sides.set side slot }
    global_memcap_bytes := d.global_memcap_bytes - released.2 }

/-- Reassemble a flow no more. -/
def discardStream (d : FlowDriver Φ K R) (key : K) : FlowDriver Φ K R :=
  (d.discardSide key .initiator).discardSide key .responder

omit [DecidableEq K] [SideReassembler R] in
def streamCount (d : FlowDriver Φ K R) : ℕ := d.streams.size

end FlowDriver

end Flowscope
