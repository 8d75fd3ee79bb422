import Flowscope.Buffered.Model
import Flowscope.Flow.Tracker

/-!
# What a driver keeps for a flow

The reassemblers of a flow's two sides, with the number of bytes that each is accounted for in the
pool of all flows (`src/flow_driver.rs`). A side that was released keeps its last counters only.

`SideReassembler` is a reassembler whose counters a driver can read, and `ReassemblerFactory` makes
new ones with the settings of the driver. Both built-in reassemblers and their factories are
instances.
-/

namespace Flowscope

/-- What a reassembler has counted. -/
structure Counters where
  dropped : ℕ
  oversize : ℕ
  crossings : ℕ
  retransmits : ℕ
  inconsistencies : ℕ
  gaps : ℕ
  gap_bytes : ℕ
  out_of_window : ℕ
  ack_gaps : ℕ
  origin_resets : ℕ
  high_watermark : ℕ
deriving DecidableEq, Repr

def Counters.zero : Counters := ⟨0, 0, 0, 0, 0, 0, 0, 0, 0, 0, 0⟩

/-- A reassembler whose counters can be read. -/
class SideReassembler (R : Type) extends Reassembler R where
  counters : R → Counters
  stopReason : R → Option ReassemblyStop
  /-- The cap of the ready buffer, and the percentage of it that is reported. -/
  highWatermarkThreshold : R → Option (ℕ × ℕ)
  bytesInFlight : R → ℕ

/-- Makes the reassemblers of `K`'s flows. -/
class ReassemblerFactory (Φ K : Type) (R : outParam Type) where
  newReassembler : Φ → K → FlowSide → R × Φ
  applyConfig : Φ → FlowTrackerConfig → Φ

/-- What the core of a reassembler has counted. -/
def Core.counters (c : Core) (inconsistencies : ℕ) : Counters where
  dropped := c.dropped_segments
  oversize := c.bytes_dropped_oversize
  crossings := c.high_watermark_crossings
  retransmits := c.retransmits
  inconsistencies
  gaps := c.gaps
  gap_bytes := c.gap_bytes
  out_of_window := c.track.out_of_window
  ack_gaps := c.ack_confirmed_gaps
  origin_resets := c.track.origin_resets
  high_watermark := c.high_watermark

def Core.highWatermarkThreshold (c : Core) : Option (ℕ × ℕ) :=
  match c.max_buffer, c.high_watermark_threshold_pct with
  | some cap, some pct => some (cap, pct)
  | _, _ => none

instance : SideReassembler SegmentBufferReassembler where
  counters s := s.toCore.counters s.rexmit_inconsistencies
  stopReason s := s.stop
  highWatermarkThreshold s := s.toCore.highWatermarkThreshold
  bytesInFlight s := s.ready.len + s.bufferedOooBytes

instance : SideReassembler BufferedReassembler where
  counters s := s.toCore.counters 0
  stopReason s := s.stop
  highWatermarkThreshold s := s.toCore.highWatermarkThreshold
  bytesInFlight s := s.ready.len

/-! ## The built-in factories -/

/-- A percentage that `with_high_watermark_threshold` accepts. -/
def clampPercent (pct : ℕ) : ℕ := max 1 (min pct 100)

/-- Makes segment-buffer reassemblers. What was set explicitly is pinned. -/
structure SegmentBufferReassemblerFactory where
  max_buffer : Option ℕ
  max_ooo_buffer : ℕ
  overflow_policy : OverflowPolicy
  overlap_policy : TcpOverlapPolicy
  high_watermark_threshold_pct : Option ℕ
  rules : StreamRules
  pinned_max_buffer : Bool
  pinned_ooo : Bool
  pinned_overlap : Bool
  pinned_rules : Bool

namespace SegmentBufferReassemblerFactory

def newReassembler (f : SegmentBufferReassemblerFactory) : SegmentBufferReassembler :=
  .new
    { rules := f.rules
      max_buffer := f.max_buffer
      overflow_policy := f.overflow_policy
      high_watermark_threshold_pct := f.high_watermark_threshold_pct.map clampPercent }
    f.max_ooo_buffer f.overlap_policy

/-- Take over the settings that are not pinned. -/
def applyConfig (f : SegmentBufferReassemblerFactory) (config : FlowTrackerConfig) :
    SegmentBufferReassemblerFactory :=
  { f with
    max_buffer := if f.pinned_max_buffer then f.max_buffer else config.max_reassembler_buffer
    overflow_policy := if f.pinned_max_buffer then f.overflow_policy else config.overflow_policy
    max_ooo_buffer := if f.pinned_ooo then f.max_ooo_buffer else config.reassembly_ooo_buffer
    rules :=
      { f.rules with
        deadline := if f.pinned_ooo then f.rules.deadline else config.reassembly_ooo_deadline
        max_ahead := if f.pinned_rules then f.rules.max_ahead else config.reassembly_max_ahead
        ack_grace := if f.pinned_rules then f.rules.ack_grace else config.reassembly_ack_grace }
    overlap_policy := if f.pinned_overlap then f.overlap_policy else config.tcp_overlap_policy
    high_watermark_threshold_pct := config.reassembler_high_watermark_pct }

instance (K : Type) :
    ReassemblerFactory SegmentBufferReassemblerFactory K SegmentBufferReassembler where
  newReassembler f _ _ := (f.newReassembler, f)
  applyConfig

end SegmentBufferReassemblerFactory

/-- Makes buffered reassemblers. What was set explicitly is pinned. -/
structure BufferedReassemblerFactory where
  max_buffer : Option ℕ
  overflow_policy : OverflowPolicy
  high_watermark_threshold_pct : Option ℕ
  pinned_max_buffer : Bool
  pinned_overflow_policy : Bool
  pinned_high_watermark : Bool

namespace BufferedReassemblerFactory

/-- A new reassembler has the default rules, and an overflow policy only if it has a cap. -/
def newReassembler (f : BufferedReassemblerFactory) : BufferedReassembler :=
  .new
    { Config.new with
      max_buffer := f.max_buffer
      overflow_policy := if f.max_buffer.isSome then f.overflow_policy else .slidingWindow
      high_watermark_threshold_pct := f.high_watermark_threshold_pct.map clampPercent }

/-- Take over the settings that are not pinned. -/
def applyConfig (f : BufferedReassemblerFactory) (config : FlowTrackerConfig) :
    BufferedReassemblerFactory :=
  { f with
    max_buffer := if f.pinned_max_buffer then f.max_buffer else config.max_reassembler_buffer
    overflow_policy :=
      if f.pinned_overflow_policy then f.overflow_policy else config.overflow_policy
    high_watermark_threshold_pct :=
      if f.pinned_high_watermark then f.high_watermark_threshold_pct
      else config.reassembler_high_watermark_pct }

instance (K : Type) : ReassemblerFactory BufferedReassemblerFactory K BufferedReassembler where
  newReassembler f _ _ := (f.newReassembler, f)
  applyConfig

end BufferedReassemblerFactory

/-! ## Slots -/

/-- A live reassembler, and the bytes that it is accounted for. -/
structure Live (R : Type) where
  r : R
  accounted : ℕ

/-- What there is for one side of a flow. -/
inductive SideSlot (R : Type) where
  /-- Nothing yet. -/
  | empty
  | live (l : Live R)
  /-- It was released. What it had counted, why it stopped, and whether that was reported. -/
  | done (stats : Option Counters) (stop : Option ReassemblyStop) (reported : Bool)

structure StreamFlow (R : Type) where
  sides : Sides (SideSlot R)
  /-- The sequence number of each side's first byte, from its SYN. -/
  origin : Sides (Option Seq)
  ports : Option (UInt16 × UInt16)

/-- A flow of which nothing was seen yet. -/
def StreamFlow.new {R : Type} (ports : Option (UInt16 × UInt16)) : StreamFlow R :=
  ⟨.both .empty, .both none, ports⟩

def SideSlot.accounted {R : Type} : SideSlot R → ℕ
  | .live l => l.accounted
  | _ => 0

/-- The bytes that the two sides of a flow are accounted for. -/
def StreamFlow.accounted {R : Type} (f : StreamFlow R) : ℕ :=
  f.sides.initiator.accounted + f.sides.responder.accounted

/-- Note the counters of a side in the statistics of its flow. -/
def foldCounters (stats : FlowStats) (side : FlowSide) (c : Counters)
    (stop : Option ReassemblyStop) : FlowStats :=
  { stats with
    reassembly := stats.reassembly.set side
      { dropped_ooo := c.dropped
        bytes_dropped_oversize := c.oversize
        high_watermark := c.high_watermark
        retransmits := c.retransmits
        gaps := c.gaps
        gap_bytes := c.gap_bytes
        stop
        out_of_window := c.out_of_window
        ack_confirmed_gaps := c.ack_gaps
        origin_resets := c.origin_resets } }

section

variable {R : Type} [SideReassembler R]

open SideReassembler in
/-- The anomalies of a side since it had counted `c`. -/
def Counters.diff (c : Counters) (r : R) (side : FlowSide) : List AnomalyKind :=
  let now := counters r
  let policy := if stopReason r = some .overflow then .dropFlow else .slidingWindow
  (if c.oversize < now.oversize then [.bufferOverflow side (now.oversize - c.oversize) policy]
    else []) ++
  (if c.gaps < now.gaps then [.streamGap side (now.gaps - c.gaps) (now.gap_bytes - c.gap_bytes)]
    else []) ++
  (if c.dropped < now.dropped then [.outOfOrderSegment side (now.dropped - c.dropped)] else []) ++
  (if c.out_of_window < now.out_of_window then
      [.outOfWindowSegment side (now.out_of_window - c.out_of_window)]
    else []) ++
  (if c.crossings < now.crossings then
      match highWatermarkThreshold r with
      | some (cap, pct) => [.reassemblerHighWatermark side (bytesInFlight r) cap pct]
      | none => []
    else []) ++
  (if c.retransmits < now.retransmits then
      [.retransmittedSegment side (now.retransmits - c.retransmits)]
    else []) ++
  if c.inconsistencies < now.inconsistencies then
    [.tcpRexmitInconsistency side (now.inconsistencies - c.inconsistencies)]
  else []

/-- The anomalies of a side since it was `before`, if anomalies are reported. -/
def anomaliesSince (emit : Bool) (before after : R) (side : FlowSide) : List AnomalyKind :=
  if emit then (SideReassembler.counters before).diff after side else []

/-- Note what a slot has counted in the statistics of its flow. -/
def foldSlot (stats : FlowStats) (side : FlowSide) : SideSlot R → FlowStats
  | .empty => stats
  | .live l =>
    foldCounters stats side (SideReassembler.counters l.r) (SideReassembler.stopReason l.r)
  | .done (some c) stop _ => foldCounters stats side c stop
  | .done none stop _ => foldCounters stats side .zero stop

/-- Something worth keeping was counted. -/
def Counters.nonzero (c : Counters) : Bool :=
  c.gaps != 0 || c.dropped != 0 || c.oversize != 0 || c.retransmits != 0 || c.high_watermark != 0 ||
    c.out_of_window != 0 || c.inconsistencies != 0

/-- Release a side. The second component is what it was accounted for. -/
def tombstone (slot : SideSlot R) (stop : Option ReassemblyStop) : SideSlot R × ℕ :=
  match slot with
  | .live l =>
    let counters := SideReassembler.counters l.r
    let stop := stop.or (SideReassembler.stopReason l.r)
    (.done (if counters.nonzero then some counters else none) stop stop.isNone, l.accounted)
  | .empty => (.done none stop stop.isNone, 0)
  | .done stats stop reported => (.done stats stop reported, 0)

end

end Flowscope
