import Flowscope.Buffered.Changes
import Flowscope.Flow.Pool
import Flowscope.Segment.Changes

/-!
# Discarding a side

A side that a driver discards leaves its counters behind, unless the seven that `tombstone` looks at
are zero. The statistics of a flow also have the bytes skipped, the holes confirmed by an ACK and
the candidates used. A built-in reassembler counts none of these three without leaving a mark in the
seven (`Core.Noted`), so that no statistic changes when a side is discarded.
-/

namespace Flowscope

open SideReassembler BufferedReassembler

variable {Φ K R : Type} {config : Config}

theorem Reached.segment_noted {max_ooo_buffer : ℕ} {policy : TcpOverlapPolicy}
    {s : SegmentBufferReassembler}
    (h : Reached (SegmentBufferReassembler.new config max_ooo_buffer policy) s) :
    s.toCore.Noted := by
  induction h with
  | refl => exact Core.noted_new config
  | call h hcl ih =>
    exact (SegmentBufferReassembler.exec_noted h.fine ih _).of_ok hcl

theorem Reached.buffered_noted {s : BufferedReassembler}
    (h : Reached (new config) s) : s.Fine .any ∧ s.toCore.Noted := by
  induction h with
  | refl => exact ⟨fine_new _, Core.noted_new config⟩
  | call _ hcl ih => exact (exec_noted ih.1 ih.2 _).of_ok hcl

/-- Counters that are all zero, as far as the statistics of a flow go. -/
structure Counters.Zero (c : Counters) : Prop where
  dropped : c.dropped = 0
  oversize : c.oversize = 0
  high_watermark : c.high_watermark = 0
  retransmits : c.retransmits = 0
  gaps : c.gaps = 0
  gap_bytes : c.gap_bytes = 0
  out_of_window : c.out_of_window = 0
  ack_gaps : c.ack_gaps = 0
  origin_resets : c.origin_resets = 0

theorem Core.Noted.zero {c : Core} (h : c.Noted) {inconsistencies : ℕ}
    (hzr : (c.counters inconsistencies).nonzero = false) :
    (c.counters inconsistencies).Zero := by
  simp only [Counters.nonzero, Core.counters, Bool.or_eq_false_iff, bne_eq_false_iff_eq] at hzr
  obtain ⟨⟨⟨⟨⟨⟨hgp, hdd⟩, hov⟩, hrex⟩, hhg⟩, hout⟩, -⟩ := hzr
  have hun : ¬ c.Marked := by
    unfold Marked
    omega
  obtain ⟨⟨hrs, hcd⟩, -, hby⟩ := h.counters.resolve_left hun
  exact ⟨hdd, hov, hhg, hrex, hgp, hby, hout, hcd, hrs⟩

section

variable [SideReassembler R]

/-- A built-in reassembler whose counters are not worth keeping has counted nothing. -/
theorem BuiltIn.zero {r : R} (h : BuiltIn r)
    (hzr : (counters r).nonzero = false) :
    (counters r).Zero := by
  cases h with
  | segmentBuffer h => exact h.segment_noted.zero hzr
  | buffered h => exact h.buffered_noted.2.zero hzr

theorem foldCounters_of_zero {c : Counters} (h : c.Zero) (stats : FlowStats) (side : FlowSide)
    (stop : Option ReassemblyStop) :
    foldCounters stats side c stop = foldCounters stats side .zero stop := by
  simp only [foldCounters, h.dropped, h.oversize, h.high_watermark, h.retransmits, h.gaps,
    h.gap_bytes, h.out_of_window, h.ack_gaps, h.origin_resets, Counters.zero]

def discarded (slot : SideSlot R) : SideSlot R :=
  match (tombstone slot none).1 with
  | .done stats stop _ => .done stats stop true
  | slot => slot

/-- A live side of a built-in reassembler is worth the same to the statistics when discarded. -/
theorem foldSlot_discarded {l : Live R} (h : BuiltIn l.r) (stats : FlowStats) (side : FlowSide) :
    foldSlot stats side (discarded (.live l)) = foldSlot stats side (.live l) := by
  unfold discarded tombstone
  dsimp only
  cases hzr : (counters l.r).nonzero with
  | true => rfl
  | false =>
    have hfo := foldCounters_of_zero (h.zero hzr) stats side (stopReason l.r)
    exact hfo.symm

end

namespace FlowDriver

variable [DecidableEq K] [SideReassembler R] {d : FlowDriver Φ K R} {key : K} {side : FlowSide}
  {flow : StreamFlow R}

variable (hfl : d.streams.lookup key = some flow)
include hfl

theorem lookup_discardSide (key' : K) :
    (d.discardSide key side).streams.lookup key' =
      if key' = key then
        some { flow with sides := flow.sides.set side (discarded (flow.sides.get side)) }
      else d.streams.lookup key' := by
  unfold discardSide
  simp only [hfl, Table.lookup_put]
  rfl

/-- The statistics of every flow are the same when a live side is discarded. -/
theorem liveStats_discardSide {l : Live R}
    (hlv : flow.sides.get side = .live l) (h : BuiltIn l.r) (key' : K) (base : FlowStats) :
    (d.discardSide key side).liveStats key' base = d.liveStats key' base := by
  unfold liveStats
  rw [lookup_discardSide hfl]
  by_cases hkey : key' = key
  · rw [if_pos hkey, hkey, hfl, hlv]
    dsimp only
    cases side with
    | initiator =>
      change flow.sides.initiator = .live l at hlv
      rw [hlv]
      change foldSlot (foldSlot base .initiator (discarded (.live l))) .responder _ = _
      rw [foldSlot_discarded h]
      rfl
    | responder =>
      change flow.sides.responder = .live l at hlv
      rw [hlv]
      change foldSlot _ .responder (discarded (.live l)) = _
      rw [foldSlot_discarded h]
      rfl
  · rw [if_neg hkey]

end FlowDriver

namespace DriverOp

variable [DecidableEq K] [SideReassembler R] [ReassemblerFactory Φ K R]

/-- What the caller does with a reassembler leaves a built-in one. -/
def KeepsBuiltIn (op : DriverOp K R) (_ : FlowDriver Φ K R × List (FlowEvent K)) : Prop :=
  match op with
  | .reassembler _ _ f => ∀ r, BuiltIn r → BuiltIn (f r)
  | _ => True

/-- In every state between the calls of a run, discarding a live side changes the statistics of no
flow: either its counters are kept, or all of them that the statistics have are zero. -/
theorem discardSide_keeps_stats (tracker : FlowTracker K) (factory : Φ) (settings : DriverSettings)
    (hmade : ∀ (f : Φ) (key : K) side, BuiltIn (ReassemblerFactory.newReassembler f key side).1)
    (ops : List (DriverOp K R))
    (halong : Except.Along exec KeepsBuiltIn ops (FlowDriver.start tracker factory settings, [])) :
    (Except.runs exec ops (FlowDriver.start tracker factory settings, [])).Sat
      (fun s : FlowDriver Φ K R × List (FlowEvent K) => ∀ key flow side l,
        s.1.streams.lookup key = some flow → flow.sides.get side = .live l →
          (∀ key' base, (s.1.discardSide key side).liveStats key' base = s.1.liveStats key' base) ∧
          (∀ stats, foldSlot stats side (discarded (.live l)) = foldSlot stats side (.live l)) ∧
          ((SideReassembler.counters l.r).nonzero = false → (SideReassembler.counters l.r).Zero))
      fun _ => True := by
  -- of the sides it is only known that their reassemblers are built-in ones
  have hsi := BuiltIn.sideInvariant hmade fun (_ : K) _ => false
  refine (runs_holds hsi tracker factory settings (fun key side f s hop flow l _ _ h => ?_)
    halong).imp fun s hs key flow side l hfl hlv => ?_
  · exact ⟨hop l.r h.1, fun hS => absurd hS Bool.false_ne_true⟩
  · have hbl : BuiltIn l.r := (hs.all key flow hfl side l hlv).1
    refine ⟨fun key' base => ?_, fun stats => ?_, hbl.zero⟩
    · exact FlowDriver.liveStats_discardSide hfl hlv hbl key' base
    · exact foldSlot_discarded hbl stats side

theorem discardSide_keeps_stats_lookedAt :
    (Except.runs exec lookedAt (FlowDriver.start (FlowTracker.withConfig miniExtract .default)
      miniFactory ⟨false, none, false, false⟩, [])).Sat
      (fun s : FlowDriver SegmentBufferReassemblerFactory UInt8 SegmentBufferReassembler ×
          List (FlowEvent UInt8) => ∀ key flow side l,
        s.1.streams.lookup key = some flow → flow.sides.get side = .live l →
          (∀ key' base, (s.1.discardSide key side).liveStats key' base = s.1.liveStats key' base) ∧
          (∀ stats, foldSlot stats side (discarded (.live l)) = foldSlot stats side (.live l)) ∧
          ((SideReassembler.counters l.r).nonzero = false → (SideReassembler.counters l.r).Zero))
      fun _ => True := by
  refine discardSide_keeps_stats _ _ _ (fun f _ _ => .segmentBuffer .refl) lookedAt ?_
  exact ⟨trivial, fun _ _ => ⟨trivial, fun _ _ => ⟨fun _ h => h, fun _ _ => trivial⟩⟩⟩

end DriverOp

end Flowscope
