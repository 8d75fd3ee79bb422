import Flowscope.Flow.Event
import Flowscope.Lib.Lru

/-!
# The flow tracker

`FlowTracker` of `src/tracker.rs`: a table of the live flows, with a TCP state for each of them, that
drops the flow used longest ago when it is full and ends the flows that are idle for too long.

The extractor is any function from packets to keys. The hook that the program calls for a packet has
no access to the tracker, so that here the packet's context is returned along with the events. The
state that a user of the crate may attach to a flow is left out, and so are the metrics.
-/

namespace Flowscope

/-- The settings of a tracker, and of the reassemblers that a driver creates for its flows. -/
structure FlowTrackerConfig where
  idle_timeout_tcp : Duration
  idle_timeout_udp : Duration
  idle_timeout_other : Duration
  max_flows : ℕ
  max_reassembler_buffer : Option ℕ
  overflow_policy : OverflowPolicy
  reassembler_high_watermark_pct : Option ℕ
  flow_tick_interval : Option Duration
  auto_sweep_interval : Option Duration
  tcp_overlap_policy : TcpOverlapPolicy
  reassembly_ooo_buffer : ℕ
  reassembly_ooo_deadline : Duration
  reassembly_max_ahead : ℕ
  reassembly_ack_grace : Duration
  reassembly_memcap : Option ℕ
  reassembly_memcap_policy : MemcapPolicy
  active_idle_threshold : Option Duration
  suppress_events : EventMask
  infer_tcp_initiator : Bool
  emit_packet_source_idx : Bool
deriving DecidableEq

def FlowTrackerConfig.default : FlowTrackerConfig where
  idle_timeout_tcp := 300 * 10^9
  idle_timeout_udp := 60 * 10^9
  idle_timeout_other := 30 * 10^9
  max_flows := 100000
  max_reassembler_buffer := some (1024 * 1024)
  overflow_policy := .slidingWindow
  reassembler_high_watermark_pct := none
  flow_tick_interval := none
  auto_sweep_interval := none
  tcp_overlap_policy := .first
  reassembly_ooo_buffer := 256 * 1024
  reassembly_ooo_deadline := 10^9
  reassembly_max_ahead := 1024 * 1024
  reassembly_ack_grace := 10 * 10^6
  reassembly_memcap := none
  reassembly_memcap_policy := .ignore
  active_idle_threshold := some (10^9)
  suppress_events := ∅
  infer_tcp_initiator := false
  emit_packet_source_idx := false

structure FlowTrackerStats where
  flows_created : ℕ
  flows_ended : ℕ
  flows_evicted : ℕ
  packets_unmatched : ℕ
deriving DecidableEq, Repr

structure FlowEntry where
  stats : FlowStats
  state : FlowState
  history : List Char
  initiator_orientation : Orientation
  l4 : Option L4Proto
  last_tick_at : Option Timestamp
deriving DecidableEq, Repr

structure PacketContext (K : Type) where
  key : K
  side : FlowSide
  orientation : Orientation
  l4 : Option L4Proto
  tcp : Option TcpInfo
  tcp_payload : List UInt8
  ports : Option (UInt16 × UInt16)
  l4_payload : Option (List UInt8)
  ts : Timestamp
  len : ℕ
  is_new : Bool
  l4_meta : Option L4Meta
  captured_len : ℕ
  truncated : Bool
deriving DecidableEq, Repr

/-- A table of live flows. -/
structure FlowTracker (K : Type) where
  extractor : PacketView → Option (Extracted K)
  flows : LruCache K FlowEntry
  config : FlowTrackerConfig
  stats : FlowTrackerStats
  /-- The flow of the last packet, which is in the table. -/
  hot : Option K
  idle_timeout_fn : Option (K → Option L4Proto → Option Duration)
  last_sweep_ts : Option Timestamp
  events_paused : Bool
  /-- A driver owns the tracker, and needs to see every `ended` event. -/
  driver_owned : Bool
  /-- How many flows `forget` has removed. -/
  forgotten : ℕ

def FlowEntry.sideFor (e : FlowEntry) (o : Orientation) : FlowSide :=
  if o = e.initiator_orientation then .initiator else .responder

/-! ## Accounting -/

namespace FlowStats

/-- Bind the capture leg of a packet to its orientation, or note that it differs. -/
def bindLeg (s : FlowStats) (o : Orientation) (source_idx : ℕ) : FlowStats :=
  if source_idx = 0 then s
  else
    let current := match o with
      | .forward => s.source_idx_forward
      | .reverse => s.source_idx_reverse
    match current with
    | none =>
      match o with
      | .forward => { s with source_idx_forward := some source_idx }
      | .reverse => { s with source_idx_reverse := some source_idx }
    | some bound => if bound ≠ source_idx then { s with capture_leg_inconsistent := true } else s

/-- The time since the previous packet, unless this is the first one. -/
def observeIat (s : FlowStats) (is_new : Bool) (ts : Timestamp) : FlowStats :=
  if is_new then s
  else { s with iat_flow := s.iat_flow.observe (ts.saturatingSub s.last_seen).asMicros }

/-- A pause longer than `threshold` ends an active period. -/
def observePeriods (s : FlowStats) (threshold : Option Duration) (is_new : Bool)
    (ts : Timestamp) : FlowStats :=
  match is_new, threshold with
  | false, some threshold =>
    let iat := ts.saturatingSub s.last_seen
    if threshold < iat then
      { s with
        active_periods := match s.active_period_start with
          | some start => s.active_periods.observe (s.last_seen.saturatingSub start).asMicros
          | none => s.active_periods
        idle_periods := s.idle_periods.observe iat.asMicros
        active_period_start := some ts }
    else s
  | false, none => s
  | true, _ => { s with active_period_start := some ts }

def countPacket (s : FlowStats) (side : FlowSide) (ts : Timestamp) (len ip_len : ℕ)
    (truncated : Bool) : FlowStats :=
  { s with
    iat :=
      if 0 < s.packets.get side then
        s.iat.set side ((s.iat.get side).observe
          (ts.saturatingSub (s.last_seen_side.get side)).asMicros)
      else s.iat
    packets := s.packets.set side (s.packets.get side + 1)
    bytes := s.bytes.set side (s.bytes.get side + len)
    ip_bytes := s.ip_bytes.set side (s.ip_bytes.get side + ip_len)
    packets_truncated :=
      s.packets_truncated.set side (s.packets_truncated.get side + truncated.toNat)
    last_seen_side := s.last_seen_side.set side ts
    last_seen := ts }

end FlowStats

/-! ## Lengths -/

namespace Extracted

variable {K : Type}

/-- A cut that the source reports bounds what the headers may claim was cut. -/
def boundCut (e : Extracted K) (cut : ℕ) : Extracted K :=
  { e with
    tcp := e.tcp.map fun t =>
      { t with wire_payload_len := min t.wire_payload_len (t.payload_len + cut) }
    l4_meta := e.l4_meta.map fun m =>
      { m with wire_payload_len := min m.wire_payload_len (m.payload_len + cut) } }

/-- How many bytes of the payload are missing according to the headers. -/
def headerCut (e : Extracted K) : ℕ :=
  max (match e.tcp with
      | some t => t.wireLen - t.payload_len
      | none => 0)
    (match e.l4_meta with
      | some m => m.wire_payload_len - m.payload_len
      | none => 0)

/-- The length on the wire, as the source reports it or as the headers claim it. -/
def packetLen (e : Extracted K) (view : PacketView) : ℕ :=
  max view.wireLen (view.frame.length + e.headerCut)

/-- The length of the datagram, at most the length on the wire. -/
def ipLen (e : Extracted K) (view : PacketView) : ℕ :=
  match e.l3_len with
  | some l => min l (e.packetLen view)
  | none => e.packetLen view

def tcpPayload (e : Extracted K) (view : PacketView) : List UInt8 :=
  match e.tcp with
  | some t => if 0 < t.payload_len then frameRange view.frame t.payload_offset t.payload_len else []
  | none => []

def context (e : Extracted K) (view : PacketView) (side : FlowSide) (is_new : Bool) :
    PacketContext K where
  key := e.key
  side
  orientation := e.orientation
  l4 := e.l4
  tcp := e.tcp
  tcp_payload := e.tcpPayload view
  ports := e.l4_meta.bind L4Meta.ports
  l4_payload := e.l4_meta.map fun m => frameRange view.frame m.payload_offset m.payload_len
  ts := view.timestamp
  len := e.packetLen view
  is_new
  l4_meta := e.l4_meta
  captured_len := view.frame.length
  truncated := view.isTruncated || e.isTruncated

end Extracted

def FlowEntry.account {K : Type} (entry : FlowEntry) (e : Extracted K) (view : PacketView)
    (threshold : Option Duration) (is_new : Bool) : FlowEntry :=
  let ts := view.timestamp
  let stats := entry.stats.bindLeg e.orientation view.source_idx
  let stats := (stats.observeIat is_new ts).observePeriods threshold is_new ts
  { entry with
    stats := stats.countPacket (entry.sideFor e.orientation) ts (e.packetLen view) (e.ipLen view)
      (view.isTruncated || e.isTruncated) }

/-! ## The tracker -/

def FlowEntry.ended {K : Type} (e : FlowEntry) (key : K) (reason : EndReason) : FlowEvent K :=
  .ended key reason e.stats e.history e.l4

namespace FlowTracker

variable {K : Type}

def withConfig (extractor : PacketView → Option (Extracted K)) (config : FlowTrackerConfig) :
    FlowTracker K where
  extractor
  flows := .new (max config.max_flows 1) (by omega)
  config
  stats := ⟨0, 0, 0, 0⟩
  hot := none
  idle_timeout_fn := none
  last_sweep_ts := none
  events_paused := false
  driver_owned := false
  forgotten := 0

def setDriverOwned (t : FlowTracker K) (owned : Bool) : FlowTracker K :=
  { t with driver_owned := owned }

def flowCount (t : FlowTracker K) : ℕ := t.flows.len

/-- Whether a sweep is due at a packet time. -/
def autoSweepDue (t : FlowTracker K) (ts : Timestamp) : Bool :=
  match t.config.auto_sweep_interval, t.last_sweep_ts with
  | none, _ => false
  | some _, none => true
  | some interval, some last => interval ≤ ts.saturatingSub last

def pauseEvents (t : FlowTracker K) : FlowTracker K := { t with events_paused := true }

def resumeEvents (t : FlowTracker K) : FlowTracker K := { t with events_paused := false }

/-- Whether events of a kind are reported. -/
def emits (t : FlowTracker K) (kind : EventKind) : Bool :=
  t.driver_owned && kind = .ended ||
    !t.events_paused && decide (kind ∉ t.config.suppress_events)

def emit (t : FlowTracker K) (ev : FlowEvent K) : List (FlowEvent K) :=
  if t.emits ev.kind then [ev] else []

/-- The packet as the tracker takes it. A frame that the source knows to be complete and whose
headers claim more is no packet of a flow. -/
def matchPacket (t : FlowTracker K) (view : PacketView) : Option (Extracted K) :=
  match t.extractor view with
  | none => none
  | some e =>
    if 0 < view.snap_cut then some (e.boundCut view.snap_cut)
    else if view.wire_known && e.isTruncated then none
    else some e

/-- The entry of a flow whose first packet this is. A SYN+ACK as the first packet can be taken for
an answer that overtook the request. -/
def newEntry (t : FlowTracker K) (e : Extracted K) (ts : Timestamp) : FlowEntry :=
  let flip := t.config.infer_tcp_initiator && e.tcp.any fun tcp => tcp.flags.syn && tcp.flags.ack
  let init_orientation := if flip then e.orientation.flipped else e.orientation
  { stats := .new ts init_orientation flip
    state := .active
    history := []
    initiator_orientation := init_orientation
    l4 := e.l4
    last_tick_at := none }

/-- The event that reports a new state. -/
def stateEvent (t : FlowTracker K) (key : K) (from_ to_ : FlowState) (became_established : Bool)
    (ts : Timestamp) (l4 : Option L4Proto) : List (FlowEvent K) :=
  if to_ = from_ then []
  else if became_established then t.emit (.established key ts l4)
  else t.emit (.stateChange key from_ to_ ts)

/-- The next state of a flow, and the event that reports it. -/
def stepState (t : FlowTracker K) (key : K) (entry : FlowEntry) (tcp : Option TcpInfo)
    (side : FlowSide) (ts : Timestamp) : FlowEntry × List (FlowEvent K) :=
  match tcp with
  | none => (entry, [])
  | some tcp =>
    let prev := entry.state
    let other_side_fin := match side with
      | .initiator => entry.stats.fin.responder
      | .responder => entry.stats.fin.initiator
    let trans := transition prev tcp.flags side other_side_fin
    ({ entry with
        history := pushForFlags entry.history tcp.flags side (decide (0 < tcp.wireLen))
        stats.fin := if tcp.flags.fin then entry.stats.fin.set side true else entry.stats.fin
        state := trans.1 },
      t.stateEvent key prev trans.1 trans.2 ts entry.l4)

def timeoutOf (t : FlowTracker K) (key : K) (entry : FlowEntry) : Duration :=
  (t.idle_timeout_fn.bind fun f => f key entry.l4).getD <|
    match entry.l4 with
    | some .tcp => t.config.idle_timeout_tcp
    | some .udp => t.config.idle_timeout_udp
    | _ => t.config.idle_timeout_other

/-- The flows that are idle for at least their timeout. -/
def expiredKeys (t : FlowTracker K) (now : Timestamp) : List K :=
  (t.flows.iter.filter fun f =>
    t.timeoutOf f.1 f.2 ≤ now.saturatingSub f.2.stats.last_seen).map Prod.fst

/-- Replace the settings. Flows that are too many are dropped without an event. -/
def setConfig (t : FlowTracker K) (config : FlowTrackerConfig) : FlowTracker K :=
  { t with
    flows := t.flows.resize (max config.max_flows 1) (by omega)
    config
    hot := none }

variable [DecidableEq K]

/-- The flow is no longer the hot one. -/
def clearHot (t : FlowTracker K) (key : K) : FlowTracker K :=
  if t.hot = some key then { t with hot := none } else t

/-- Take a flow out of the table. -/
def removeFlow (t : FlowTracker K) (key : K) : FlowTracker K :=
  { t with flows := t.flows.pop key }.clearHot key

/-- Take a flow that ended out of the table. -/
def endFlow (t : FlowTracker K) (key : K) : FlowTracker K :=
  let t := t.removeFlow key
  { t with stats.flows_ended := t.stats.flows_ended + 1 }

/-- End the flow that a new one has displaced. -/
def evict (t : FlowTracker K) (new : K) (dropped : Option (K × FlowEntry)) :
    FlowTracker K × List (FlowEvent K) :=
  match dropped with
  | some (key, old) =>
    if key ≠ new then
      let t := t.clearHot key
      ({ t with
          stats.flows_evicted := t.stats.flows_evicted + 1
          stats.flows_ended := t.stats.flows_ended + 1 }, t.emit (old.ended key .evicted))
    else (t, [])
  | none => (t, [])

def insertFlow (t : FlowTracker K) (e : Extracted K) (ts : Timestamp) :
    FlowTracker K × List (FlowEvent K) :=
  let entry := t.newEntry e ts
  let pushed := t.flows.push e.key entry
  let evicted := { t with flows := pushed.1 }.evict e.key pushed.2
  let t := evicted.1
  ({ t with stats.flows_created := t.stats.flows_created + 1 },
    evicted.2 ++ t.emit (.started e.key (entry.sideFor e.orientation) e.orientation ts e.l4))

/-- Whether the packet's flow has to be inserted. The hot flow is known to be in the table. -/
def isNew (t : FlowTracker K) (key : K) : Bool :=
  !decide (t.hot = some key) && !t.flows.contains key

/-- Insert the flow of a packet if it is new. -/
def enter (t : FlowTracker K) (e : Extracted K) (ts : Timestamp) :
    FlowTracker K × List (FlowEvent K) :=
  if t.isNew e.key then t.insertFlow e ts else (t, [])

/-- After a packet, end a flow whose state is terminal. Any other flow is now the hot one. -/
def settle (t : FlowTracker K) (key : K) : FlowTracker K × List (FlowEvent K) :=
  match t.flows.peek key with
  | some entry =>
    if entry.state.isTerminal then
      let reason := match entry.state with
        | .reset => .rst
        | _ => .fin
      (t.endFlow key, t.emit (entry.ended key reason))
    else ({ t with hot := some key }, [])
  | none => ({ t with hot := some key }, [])

def process (t : FlowTracker K) (view : PacketView) (e : Extracted K) (is_new : Bool)
    (entry : FlowEntry) : FlowTracker K × List (FlowEvent K) :=
  let ts := view.timestamp
  let side := entry.sideFor e.orientation
  let entry := entry.account e view t.config.active_idle_threshold is_new
  let stepped := t.stepState e.key entry e.tcp side ts
  let settled := { t with flows := t.flows.set e.key stepped.1 }.settle e.key
  let source_idx :=
    if t.config.emit_packet_source_idx && view.source_idx ≠ 0 then some view.source_idx else none
  (settled.1, stepped.2 ++
    t.emit (.packet e.key side e.orientation (e.packetLen view) ts source_idx) ++ settled.2)

/-- End one flow that is idle for too long. A flow that was closed or reset has ended before. -/
def expire (t : FlowTracker K) (key : K) : FlowTracker K × List (FlowEvent K) :=
  match t.flows.peek key with
  | none => (t, [])
  | some entry =>
    if entry.state = .closed ∨ entry.state = .reset then
      ({ t with flows := t.flows.pop key }, [])
    else (t.endFlow key, t.emit (entry.ended key .idleTimeout))

/-- End flows that are idle for too long, one after the other. -/
def expireAll (t : FlowTracker K) : List K → FlowTracker K × List (FlowEvent K)
  | [] => (t, [])
  | key :: keys =>
    let first := t.expire key
    let rest := first.1.expireAll keys
    (rest.1, first.2 ++ rest.2)

/-- End the flows that are idle for too long. -/
def sweep (t : FlowTracker K) (now : Timestamp) : FlowTracker K × List (FlowEvent K) :=
  { t with last_sweep_ts := some now }.expireAll (t.expiredKeys now)

/-- The end of the input. -/
def finish (t : FlowTracker K) : FlowTracker K × List (FlowEvent K) := t.sweep .MAX

def autoSweep (t : FlowTracker K) (ts : Timestamp) : FlowTracker K × List (FlowEvent K) :=
  if !t.driver_owned && t.autoSweepDue ts then t.sweep ts else (t, [])

/-- A packet. The context is that of a packet that belongs to a flow. -/
def trackWith (t : FlowTracker K) (view : PacketView) :
    Result (FlowTracker K × List (FlowEvent K) × Option (PacketContext K)) :=
  match t.matchPacket view with
  | none =>
    .ok ({ t with stats.packets_unmatched := t.stats.packets_unmatched + 1 }, [], none)
  | some e =>
    let is_new := t.isNew e.key
    let entered := t.enter e view.timestamp
    match entered.1.flows.peek e.key with
    | none => .error .expect
    | some entry =>
      let processed := entered.1.process view e is_new entry
      let swept := processed.1.autoSweep view.timestamp
      .ok (swept.1, entered.2 ++ processed.2 ++ swept.2,
        some (e.context view (entry.sideFor e.orientation) is_new))

/-- End a flow. The `ended` event is returned even if events are not reported. -/
def forceClose (t : FlowTracker K) (key : K) : FlowTracker K × Option (FlowEvent K) :=
  match t.flows.peek key with
  | none => (t, none)
  | some entry => (t.endFlow key, some (entry.ended key .forceClosed))

/-- Remove a flow without an event. -/
def forget (t : FlowTracker K) (key : K) : FlowTracker K × Bool :=
  if t.flows.contains key then
    let t := t.removeFlow key
    ({ t with forgotten := t.forgotten + 1 }, true)
  else (t, false)

/-- Note when a flow was reported to be alive. -/
def markTicked (t : FlowTracker K) (key : K) (now : Timestamp) : FlowTracker K :=
  { t with flows := t.flows.peekMut key fun e => { e with last_tick_at := some now } }

end FlowTracker

end Flowscope
