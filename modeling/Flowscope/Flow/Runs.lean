import Flowscope.Flow.Quiet

/-!
# Runs of a driver

The calls that a program makes of a driver, one after the other, with the events that they return.
A call that panics ends the run.

What a packet does to the pool is what it does on its way to the reassemblers of its flow
(`track_sat`): everything else that happens to the pool in a call is quiet.
-/

namespace Flowscope

open FlowDriver

inductive DriverOp (K R : Type) where
  | track (view : PacketView)
  /-- `track_pending_with`: the packet is handed on if the flow is wanted. -/
  | trackPending (want : PacketContext K → Bool) (view : PacketView)
  | finalize (events : List (FlowEvent K))
  | sweep (now : Timestamp)
  /-- `sweep_pending`, and `sweep_pending_drain`. -/
  | sweepPending (now : Timestamp) (drain : Bool)
  | finish
  | forceClose (key : K) (now : Timestamp)
  | forceClosePending (key : K) (now : Timestamp)
  | drainStream (key : K) (side : FlowSide) (out : StreamChunks)
  | discardSide (key : K) (side : FlowSide)
  | discardStream (key : K)
  | setConfig (config : FlowTrackerConfig)
  /-- `forget` of the tracker, by `tracker_mut`. -/
  | forget (key : K)
  /-- Something is done with the reassembler of a side, by `reassembler`. -/
  | reassembler (key : K) (side : FlowSide) (f : R → R)

namespace FlowDriver

variable {Φ K R : Type} [DecidableEq K]

/-- `reassembler`: the caller gets at the reassembler of a side, and does `f` with it. -/
def withReassembler (d : FlowDriver Φ K R) (key : K) (side : FlowSide) (f : R → R) :
    FlowDriver Φ K R :=
  match d.streams.lookup key with
  | none => d
  | some flow =>
    match flow.sides.get side with
    | .live l =>
      let sides := flow.sides.set side (.live { l with r := f l.r })
      { d with streams := d.streams.put key { flow with sides } }
    | _ => d

end FlowDriver

structure DriverSettings where
  emit_anomalies : Bool
  dedup : Option Dedup
  monotonic_timestamps : Bool
  passthrough : Bool

def FlowDriver.start {Φ K R : Type} [ReassemblerFactory Φ K R] (tracker : FlowTracker K)
    (factory : Φ) (settings : DriverSettings) : FlowDriver Φ K R :=
  { fromTracker tracker factory with
    emit_anomalies := settings.emit_anomalies
    dedup := settings.dedup
    monotonic_ts := if settings.monotonic_timestamps then some .zero else none
    passthrough := settings.passthrough }

namespace DriverOp

variable {Φ K R : Type} [DecidableEq K] [SideReassembler R] [ReassemblerFactory Φ K R]

/-- What a call does, and the events that it returns. -/
def call (op : DriverOp K R) (d : FlowDriver Φ K R) :
    Result (FlowDriver Φ K R × List (FlowEvent K)) :=
  match op with
  | .track view => d.track view
  | .trackPending want view => do
    let (d, events) ← d.trackRaw want view
    d.closeAll events
  | .finalize events => return (d.finalize events, [])
  | .sweep now => d.sweep now
  | .sweepPending now drain => do
    let (d, events, _) ← d.sweepPending now drain
    return (d, events)
  | .finish => d.finish
  | .forceClose key now => d.forceClose key now
  | .forceClosePending key now => do
    let (d, events) := d.forceCloseRaw key now
    d.closeAll events
  | .drainStream key side out => return ((d.drainStream key side out).1, [])
  | .discardSide key side => return (d.discardSide key side, [])
  | .discardStream key => return (d.discardStream key, [])
  | .setConfig config => return (d.setConfig config, [])
  | .forget key => return ({ d with tracker := (d.tracker.forget key).1 }, [])
  | .reassembler key side f => return (d.withReassembler key side f, [])

/-- A call, where the events are collected. -/
def exec (op : DriverOp K R) (s : FlowDriver Φ K R × List (FlowEvent K)) :
    Result (FlowDriver Φ K R × List (FlowEvent K)) := do
  let (d, events) ← op.call s.1
  return (d, s.2 ++ events)

end DriverOp

namespace FlowDriver

variable {Φ K R : Type} [DecidableEq K] [SideReassembler R] [ReassemblerFactory Φ K R]

omit [ReassemblerFactory Φ K R] in
theorem pool_ticks (d : FlowDriver Φ K R) (ts : Timestamp) : (d.ticks ts).1.pool = d.pool := by
  unfold ticks emitTicks
  split
  · split_ifs
    · rfl
    · rfl
    · rfl
  · rfl

/-- The packet, at a time that is not before those that were seen. -/
def clampedView (d : FlowDriver Φ K R) (view : PacketView) : PacketView :=
  { view with timestamp := (d.clampNow view.timestamp).2 }

variable {Q : Pool K R → Prop} {d : FlowDriver Φ K R} {want : PacketContext K → Bool}
  {view : PacketView}

/-- The pool after a packet that was kept is the one after the packet was handed on. -/
theorem trackKept_sat
    (h : ∀ tracker events p, d.tracker.trackWith view = .ok (tracker, events, p) →
      ({ d with max_ts := d.max_ts.max view.timestamp, tracker }.feedPacket want p).Sat
        (fun r => Q r.1.pool) fun _ => True) :
    (d.trackKept want view).Sat (fun r => Q r.1.pool) fun _ => True := by
  refine Except.sat_bind_of_ok fun r hr => ?_
  obtain ⟨tracker, events, p⟩ := r
  refine Except.Sat.bind ((h tracker events p hr).imp fun r' hr' => ?_)
  rw [Except.sat_pure, pool_ticks]
  exact hr'

/-- Whatever the tracker makes of the packet, handing it on leads to `Q`. -/
def Feeds (Q : Pool K R → Prop) (d : FlowDriver Φ K R) (want : PacketContext K → Bool)
    (view : PacketView) : Prop :=
  ∀ tracker events p, d.tracker.trackWith (d.clampedView view) = .ok (tracker, events, p) →
    ∀ d' : FlowDriver Φ K R, d'.pool = d.pool → d'.tracker = tracker →
      (d'.feedPacket want p).Sat (fun r => Q r.1.pool) fun _ => True

/-- The pool after a packet is the one before, or the one after the packet was handed on. -/
theorem trackRaw_sat (hQ : Q d.pool) (h : d.Feeds Q want view) :
    (d.trackRaw want view).Sat (fun r => Q r.1.pool) fun _ => True := by
  unfold trackRaw
  obtain ⟨last, dedup, hkp⟩ : ∃ last dedup, ({ d with last_packet := none }.keepPacket view).1 =
      { d with last_packet := last, dedup } := by
    cases d.dedup with
    | none => exact ⟨_, _, rfl⟩
    | some dedup => exact ⟨_, _, rfl⟩
  obtain ⟨kept, hkt⟩ : ∃ kept, { d with last_packet := none }.keepPacket view = kept := ⟨_, rfl⟩
  rw [hkt] at hkp ⊢
  obtain ⟨d1, keep⟩ := kept
  subst hkp
  cases keep with
  | false => exact hQ
  | true =>
    have hcl : (({ d with last_packet := last, dedup } : FlowDriver Φ K R).clampNow
        view.timestamp).2 = (d.clampNow view.timestamp).2 := by
      unfold clampNow
      cases d.monotonic_ts <;> rfl
    have hpl : (({ d with last_packet := last, dedup } : FlowDriver Φ K R).clampNow
        view.timestamp).1.pool = d.pool := pool_clampNow _ _
    have htr : (({ d with last_packet := last, dedup } : FlowDriver Φ K R).clampNow
        view.timestamp).1.tracker = d.tracker := by
      cases d.monotonic_ts <;> rfl
    apply trackKept_sat
    intro tracker events p hp
    rw [htr, hcl] at hp
    exact h tracker events p hp _ hpl rfl

variable (hqt : ∀ p p', Quiets p p' → Q p → Q p') (hQ : Q d.pool)
include hqt hQ

/-- A packet whose flows are closed, for what holds of the pool between packets. -/
theorem trackPending_sat (h : d.Feeds Q want view) :
    (do
      let (d, events) ← d.trackRaw want view
      d.closeAll events : Result (FlowDriver Φ K R × List (FlowEvent K))).Sat
      (fun r => Q r.1.pool) fun _ => True := by
  refine Except.Sat.bind ((trackRaw_sat hQ h).imp fun r hr => ?_)
  exact (closeAll_lulls _ _).imp fun r' hr' => hqt _ _ hr'.quiet hr

/-- A packet, and the sweep after it. -/
theorem track_sat (h : d.Feeds Q (fun _ => true) view) :
    (d.track view).Sat (fun r => Q r.1.pool) fun _ => True := by
  refine Except.Sat.bind ((trackPending_sat hqt hQ h).imp fun r hr => ?_)
  obtain ⟨d', events⟩ := r
  have hfl : Q (d'.finalize events).pool := hqt _ _ (finalize_lulls _ _).quiet hr
  dsimp only
  split
  · split_ifs
    · refine Except.Sat.bind ((sweep_quiets _ _).imp fun r' hr' => ?_)
      exact hqt _ _ hr' hfl
    · exact hfl
  · exact hfl

end FlowDriver

namespace DriverOp

variable {Φ K R : Type} [DecidableEq K] [SideReassembler R] [ReassemblerFactory Φ K R]

/-- The packet of a call. -/
def packet : DriverOp K R → Option PacketView
  | .track view => some view
  | .trackPending _ view => some view
  | _ => none

variable {Q : Pool K R → Prop} {op : DriverOp K R}

/-- What holds of the pool after a call, if it is kept by everything quiet, by an entry for a flow of
which nothing was seen, by a packet that is handed on, and by the caller. -/
theorem call_sat {d : FlowDriver Φ K R}
    (hqt : ∀ p p', Quiets p p' → Q p → Q p') (htc : ∀ p key, Q p → Q (p.touch key))
    (hpc : ∀ view, op.packet = some view → ∀ want tracker events p,
      d.tracker.trackWith (d.clampedView view) = .ok (tracker, events, p) →
      ∀ d' : FlowDriver Φ K R, d'.pool = d.pool → d'.tracker = tracker →
        (d'.feedPacket want p).Sat (fun r => Q r.1.pool) fun _ => True)
    (hod : ∀ key side f, op = .reassembler key side f → Q (d.withReassembler key side f).pool)
    (hQ : Q d.pool) : (op.call d).Sat (fun r => Q r.1.pool) fun _ => True := by
  cases op with
  | track view => exact track_sat hqt hQ (hpc view rfl _)
  | trackPending want view => exact trackPending_sat hqt hQ (hpc view rfl _)
  | finalize events => exact hqt _ _ (finalize_lulls d events).quiet hQ
  | sweep now => exact (sweep_quiets d now).imp fun r hr => hqt _ _ hr hQ
  | sweepPending now drain =>
    refine Except.Sat.bind ((sweepPending_quiets d now drain).imp fun r hr => ?_)
    exact hqt _ _ hr hQ
  | finish => exact (finish_quiets d).imp fun r hr => hqt _ _ hr hQ
  | forceClose key now =>
    exact (forceClose_quiets d key now).imp fun r hr => hqt _ _ hr hQ
  | forceClosePending key now =>
    have hraw : Q (d.forceCloseRaw key now).1.pool := by
      rw [pool_forceCloseRaw]
      exact hQ
    exact (closeAll_lulls _ _).imp fun r hr => hqt _ _ hr.quiet hraw
  | drainStream key side out => exact hqt _ _ (drainStream_quiets d key side out) hQ
  | discardSide key side =>
    exact hqt _ _ (discardSide_quiets d key side) (htc _ key hQ)
  | discardStream key =>
    exact hqt _ _ (discardStream_quiets d key) (htc _ key hQ)
  | setConfig config => exact hQ
  | forget key => exact hQ
  | reassembler key side f => exact hod key side f rfl

/-- The same for the calls of a run. -/
theorem exec_sat {s : FlowDriver Φ K R × List (FlowEvent K)}
    (h : (op.call s.1).Sat (fun r => Q r.1.pool) fun _ => True) :
    (op.exec s).Sat (fun r => Q r.1.pool) fun _ => True :=
  Except.Sat.bind (h.imp fun _ hr => hr)

end DriverOp

/-! ## A packet format for examples -/

/-- A packet of a small format: its flow, its direction, its TCP flags, its sequence number, its
acknowledgement number, and its payload. -/
def miniPacket (key dir flags : UInt8) (seq ack : ℕ) (payload : List UInt8)
    (timestamp : Timestamp) : PacketView where
  frame :=
    let bytes (n : ℕ) : List UInt8 := [24, 16, 8, 0].map fun i => UInt8.ofNat (n / 2^i)
    key :: dir :: flags :: (bytes seq ++ bytes ack ++ payload)
  timestamp
  source_idx := 0
  snap_cut := 0
  wire_known := true

/-- Reads the format. -/
def miniExtract (view : PacketView) : Option (Extracted UInt8) :=
  match view.frame with
  | key :: dir :: flags :: s₃ :: s₂ :: s₁ :: s₀ :: a₃ :: a₂ :: a₁ :: a₀ :: payload =>
    let number (bytes : List UInt8) : Seq :=
      BitVec.ofNat 32 (bytes.foldl (fun n b => n * 256 + b.toNat) 0)
    some
      { key
        orientation := if dir = 0 then .forward else .reverse
        l4 := some .tcp
        tcp := some
          { flags :=
              { fin := flags.toNat.testBit 0
                syn := flags.toNat.testBit 1
                rst := flags.toNat.testBit 2
                ack := flags.toNat.testBit 4 }
            seq := number [s₃, s₂, s₁, s₀]
            ack := number [a₃, a₂, a₁, a₀]
            payload_offset := 11
            payload_len := payload.length
            wire_payload_len := payload.length }
        l4_meta := none
        l3_len := none }
  | _ => none

/-- The factory of segment-buffer reassemblers, with nothing pinned. -/
def miniFactory : SegmentBufferReassemblerFactory where
  max_buffer := none
  max_ooo_buffer := 0
  overflow_policy := .slidingWindow
  overlap_policy := .first
  high_watermark_threshold_pct := none
  rules := Config.new.rules
  pinned_max_buffer := false
  pinned_ooo := false
  pinned_overlap := false
  pinned_rules := false

end Flowscope
