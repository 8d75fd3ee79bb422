import Flowscope.Flow.Basic
import Mathlib.Data.Finset.Basic

/-!
# Packets, flow statistics, and events

The data that the tracker reads and returns: the packet view of `src/view.rs`, what an extractor
makes of it (`src/extractor.rs`), the statistics, states, anomalies and events of `src/event.rs`, the
history string of `src/history.rs` and the transitions of `src/tcp_state.rs`. Two fields of the
program that differ only in the side they are about are one field with a value for each side.
-/

namespace Flowscope

def Timestamp.MAX : Timestamp := ⟨2^32 - 1, 999999999⟩

/-- A span in whole microseconds. -/
def Duration.asMicros (d : Duration) : ℕ := d / 1000

/-! ## Packets -/

/-- The flags of a TCP header that the crate reads. -/
structure TcpFlags where
  fin : Bool
  syn : Bool
  rst : Bool
  ack : Bool
deriving DecidableEq, Repr

/-- What is above the network layer. -/
inductive L4Proto where
  | tcp
  | udp
  | icmp
  | icmpV6
  | sctp
  | other (number : UInt8)
deriving DecidableEq, Repr

/-- A TCP header, and where its payload is in the frame. -/
structure TcpInfo where
  flags : TcpFlags
  seq : Seq
  ack : Seq
  payload_offset : ℕ
  /-- How many bytes of the payload were captured. -/
  payload_len : ℕ
  /-- How many bytes of payload the headers claim. -/
  wire_payload_len : ℕ
deriving DecidableEq, Repr

def TcpInfo.isTruncated (t : TcpInfo) : Bool := t.payload_len < t.wire_payload_len

def TcpInfo.wireLen (t : TcpInfo) : ℕ := max t.wire_payload_len t.payload_len

/-- Where the payload of the transport layer is in the frame. -/
structure L4Meta where
  /-- The source and the destination port. -/
  ports : Option (UInt16 × UInt16)
  payload_offset : ℕ
  payload_len : ℕ
  wire_payload_len : ℕ
deriving DecidableEq, Repr

def L4Meta.isTruncated (m : L4Meta) : Bool := m.payload_len < m.wire_payload_len

/-- `frame.get(start..start + len)`, empty where that is out of range. -/
def frameRange (frame : List UInt8) (start len : ℕ) : List UInt8 :=
  if start + len ≤ frame.length then (frame.drop start).take len else []

/-- What an extractor makes of a packet. -/
structure Extracted (K : Type) where
  key : K
  orientation : Orientation
  l4 : Option L4Proto
  tcp : Option TcpInfo
  l4_meta : Option L4Meta
  /-- The length of the IP datagram. -/
  l3_len : Option ℕ
deriving DecidableEq, Repr

/-- The headers claim more payload than there is. -/
def Extracted.isTruncated {K : Type} (e : Extracted K) : Bool :=
  e.tcp.any TcpInfo.isTruncated || e.l4_meta.any L4Meta.isTruncated

structure PacketView where
  frame : List UInt8
  timestamp : Timestamp
  /-- The capture leg, `0` if unknown. -/
  source_idx : ℕ
  /-- How many bytes the capture cut off. -/
  snap_cut : ℕ
  /-- Whether the source knows the length on the wire. -/
  wire_known : Bool
deriving DecidableEq, Repr

def PacketView.wireLen (v : PacketView) : ℕ := v.frame.length + v.snap_cut

def PacketView.isTruncated (v : PacketView) : Bool := 0 < v.snap_cut

/-! ## States -/

/-- The state of a flow. Flows that are not TCP stay `active`. -/
inductive FlowState where
  | synSent
  | synReceived
  | established
  | finWait
  | closingTcp
  | active
  | closed
  | reset
  | aborted
deriving DecidableEq, Repr

def FlowState.isTerminal : FlowState → Bool
  | .closed | .reset | .aborted => true
  | _ => false

/-- The next state, where `other_side_fin` tells whether the other side has sent a FIN. -/
def nextState (state : FlowState) (flags : TcpFlags) (side : FlowSide) (other_side_fin : Bool) :
    FlowState :=
  -- a RST resets the flow in whatever state it is
  if flags.rst then .reset
  else
    match state, side with
    | .active, .initiator => if flags.syn then .synSent else state
    | .synSent, .responder => if flags.syn && flags.ack then .synReceived else state
    | .synReceived, .initiator => if flags.ack then .established else state
    | .established, _ => if flags.fin then .finWait else state
    | .finWait, _ => if flags.fin && other_side_fin then .closingTcp else state
    | .closingTcp, _ => if flags.ack then .closed else state
    | _, _ => state

/-- The next state, and whether it crosses into `established`. -/
def transition (state : FlowState) (flags : TcpFlags) (side : FlowSide) (other_side_fin : Bool) :
    FlowState × Bool :=
  let new := nextState state flags side other_side_fin
  (new, decide (state ≠ .established ∧ new = .established))

/-- How many characters a history string holds. -/
def HISTORY_CAP : ℕ := 16

/-- The characters that a packet adds to the history, capitals for the initiator. -/
def charsForFlags (flags : TcpFlags) (side : FlowSide) (has_payload : Bool) : List Char :=
  let pick (upper lower : Char) : Char :=
    match side with
    | .initiator => upper
    | .responder => lower
  (if flags.syn then [pick 'S' 's'] else []) ++ (if flags.fin then [pick 'F' 'f'] else []) ++
    (if flags.rst then [pick 'R' 'r'] else []) ++ if has_payload then [pick 'D' 'd'] else []

/-- Append the characters of a packet as far as there is room. -/
def pushForFlags (history : List Char) (flags : TcpFlags) (side : FlowSide) (has_payload : Bool) :
    List Char :=
  (history ++ charsForFlags flags side has_payload).take HISTORY_CAP

/-! ## Statistics -/

/-- A running mean and variance. The program keeps the count, the mean and the sum of the squares as
floats; here it is what they are computed from. -/
structure WelfordStats where
  observations : List ℕ
deriving DecidableEq, Repr

def WelfordStats.new : WelfordStats := ⟨[]⟩

def WelfordStats.observe (w : WelfordStats) (x : ℕ) : WelfordStats := ⟨w.observations ++ [x]⟩

/-- What the statistics of a flow say about the reassembly of one side. -/
structure Diagnostics where
  dropped_ooo : ℕ
  bytes_dropped_oversize : ℕ
  high_watermark : ℕ
  retransmits : ℕ
  gaps : ℕ
  gap_bytes : ℕ
  stop : Option ReassemblyStop
  out_of_window : ℕ
  ack_confirmed_gaps : ℕ
  origin_resets : ℕ
deriving DecidableEq, Repr

def Diagnostics.zero : Diagnostics := ⟨0, 0, 0, 0, 0, 0, none, 0, 0, 0⟩

structure FlowStats where
  packets : Sides ℕ
  bytes : Sides ℕ
  ip_bytes : Sides ℕ
  packets_truncated : Sides ℕ
  started : Timestamp
  last_seen : Timestamp
  /-- When the last packet of each side was seen. -/
  last_seen_side : Sides Timestamp
  reassembly : Sides Diagnostics
  /-- The times between packets, in microseconds. -/
  iat_flow : WelfordStats
  /-- The times between packets of one side. -/
  iat : Sides WelfordStats
  active_periods : WelfordStats
  idle_periods : WelfordStats
  active_period_start : Option Timestamp
  initiator_orientation : Orientation
  source_idx_forward : Option ℕ
  source_idx_reverse : Option ℕ
  capture_leg_inconsistent : Bool
  direction_flipped : Bool
  /-- Whether each side has sent a FIN. -/
  fin : Sides Bool
deriving DecidableEq, Repr

/-- The statistics of a flow whose first packet is seen at `ts`. -/
def FlowStats.new (ts : Timestamp) (initiator_orientation : Orientation)
    (direction_flipped : Bool) : FlowStats where
  packets := .both 0
  bytes := .both 0
  ip_bytes := .both 0
  packets_truncated := .both 0
  started := ts
  last_seen := ts
  last_seen_side := .both .zero
  reassembly := .both .zero
  iat_flow := .new
  iat := .both .new
  active_periods := .new
  idle_periods := .new
  active_period_start := none
  initiator_orientation
  source_idx_forward := none
  source_idx_reverse := none
  capture_leg_inconsistent := false
  direction_flipped
  fin := .both false

/-! ## Events -/

/-- What happens when the memory for reassembly is used up. -/
inductive MemcapPolicy where
  /-- Nothing. -/
  | ignore
  /-- Both sides of the flow are released. -/
  | dropFlow
  /-- The segment is refused. -/
  | dropPacket
  /-- The side is released. -/
  | passThrough
deriving DecidableEq, Repr

/-- What is odd about a flow or about the tracker. -/
inductive AnomalyKind where
  | bufferOverflow (side : FlowSide) (bytes : ℕ) (policy : OverflowPolicy)
  | outOfOrderSegment (side : FlowSide) (count : ℕ)
  | streamGap (side : FlowSide) (gaps bytes : ℕ)
  | outOfWindowSegment (side : FlowSide) (count : ℕ)
  | flowTableEvictionPressure (evicted_in_tick evicted_total : ℕ)
  | retransmittedSegment (side : FlowSide) (count : ℕ)
  | reassemblerHighWatermark (side : FlowSide) (bytes cap threshold_pct : ℕ)
  | tcpRexmitInconsistency (side : FlowSide) (count : ℕ)
  | globalMemcapHit (bytes_in_flight cap : ℕ) (policy : MemcapPolicy)
deriving DecidableEq, Repr

/-- The variants of `FlowEvent`. -/
inductive EventKind where
  | started
  | packet
  | established
  | stateChange
  | ended
  | flowAnomaly
  | trackerAnomaly
  | tick
deriving DecidableEq, Repr

/-- A set of event variants. -/
abbrev EventMask : Type := Finset EventKind

/-- What a tracker or a driver reports. -/
inductive FlowEvent (K : Type) where
  | started (key : K) (side : FlowSide) (orientation : Orientation) (ts : Timestamp)
      (l4 : Option L4Proto)
  | packet (key : K) (side : FlowSide) (orientation : Orientation) (len : ℕ) (ts : Timestamp)
      (source_idx : Option ℕ)
  | established (key : K) (ts : Timestamp) (l4 : Option L4Proto)
  | stateChange (key : K) (from_ to_ : FlowState) (ts : Timestamp)
  | ended (key : K) (reason : EndReason) (stats : FlowStats) (history : List Char)
      (l4 : Option L4Proto)
  | flowAnomaly (key : K) (kind : AnomalyKind) (ts : Timestamp)
  | trackerAnomaly (kind : AnomalyKind) (ts : Timestamp)
  | tick (key : K) (stats : FlowStats) (ts : Timestamp)
deriving DecidableEq, Repr

namespace FlowEvent

variable {K : Type}

def kind : FlowEvent K → EventKind
  | started .. => .started
  | packet .. => .packet
  | established .. => .established
  | stateChange .. => .stateChange
  | ended .. => .ended
  | flowAnomaly .. => .flowAnomaly
  | trackerAnomaly .. => .trackerAnomaly
  | tick .. => .tick

def ending : FlowEvent K → Option (K × EndReason)
  | ended key reason .. => some (key, reason)
  | _ => none

end FlowEvent

end Flowscope
