import Flowscope.Flow.Driver
import Mathlib.Logic.Relation

/-!
# What a driver does to its reassemblers without a packet

Besides handing it the segments of a packet, a driver flushes a reassembler, tells it the time, takes
its output, releases it, or lets go of its flow. `SlotStep` and `Quiet` list these, with what they do
to the pool, and everything that a driver does between packets is a sequence of them. So is closing
the flows that a packet has ended.
-/

namespace Flowscope

open Except Relation

variable {Φ K R : Type}

/-- The flows of a driver, and what they are accounted for. -/
structure Pool (K R : Type) where
  streams : Table K (StreamFlow R)
  bytes : ℕ

/-- The streams of a driver, and their cap. -/
def FlowDriver.pool (d : FlowDriver Φ K R) : Pool K R := ⟨d.streams, d.global_memcap_bytes⟩

section Slots

variable [SideReassembler R]

/-- One thing that is done to a side without a packet, and what becomes of the pool. -/
inductive SlotStep : SideSlot R × ℕ → SideSlot R × ℕ → Prop
  | flush {l : Live R} {r : R} (call : Reassembler.flushPending l.r = .ok r) (b : ℕ) :
      SlotStep (.live l, b) (.live { l with r }, b)
  | advance {l : Live R} {r : R} {now : Timestamp} (call : Reassembler.advanceTime l.r now = .ok r)
      (b : ℕ) : SlotStep (.live l, b) (.live { l with r }, b)
  | drain {l : Live R} {r : R} {out : StreamChunks} (call : (Reassembler.drainInto l.r out).1 = r)
      (b : ℕ) :
      SlotStep (.live l, b)
        (.live ⟨r, Reassembler.currentBytes r⟩, b - l.accounted + Reassembler.currentBytes r)
  /-- The side is released, or what was released is reported. -/
  | discard {slot : SideSlot R} {stats : Option Counters} {stop : Option ReassemblyStop}
      {reported : Bool} (b : ℕ) : SlotStep (slot, b) (.done stats stop reported, b - slot.accounted)

/-- A sequence of them. -/
abbrev SlotSteps : SideSlot R × ℕ → SideSlot R × ℕ → Prop := Relation.ReflTransGen SlotStep

/-- A side that is released refunds what it was accounted for. -/
theorem tombstone_eq (slot : SideSlot R) (stop : Option ReassemblyStop) :
    ∃ stats stop' reported, tombstone slot stop = (.done stats stop' reported, slot.accounted) := by
  cases slot with
  | empty => exact ⟨_, _, _, rfl⟩
  | live l => exact ⟨_, _, _, rfl⟩
  | done stats stop' reported => exact ⟨_, _, _, rfl⟩

variable [DecidableEq K]

/-- One thing that is done to a flow without a packet. -/
inductive Quiet : Pool K R → Pool K R → Prop
  /-- Both sides take steps. -/
  | flow {p : Pool K R} {key : K} {flow : StreamFlow R} {i r : SideSlot R} {b b' : ℕ}
      (lookup : p.streams.lookup key = some flow)
      (initiator : SlotSteps (flow.sides.initiator, p.bytes) (i, b))
      (responder : SlotSteps (flow.sides.responder, b) (r, b')) :
      Quiet p ⟨p.streams.put key { flow with sides := ⟨i, r⟩ }, b'⟩
  /-- The flow is let go of. -/
  | drop {p : Pool K R} {key : K} {flow : StreamFlow R} (lookup : p.streams.lookup key = some flow) :
      Quiet p ⟨p.streams.erase key,
        p.bytes - flow.sides.initiator.accounted - flow.sides.responder.accounted⟩

/-- A sequence of them. -/
abbrev Quiets : Pool K R → Pool K R → Prop := Relation.ReflTransGen Quiet

/-- Steps of one side are a step of the pool. -/
theorem Quiet.side {p : Pool K R} {key : K} {flow : StreamFlow R} {side : FlowSide}
    {slot : SideSlot R} {b : ℕ} (hfl : p.streams.lookup key = some flow)
    (h : SlotSteps (flow.sides.get side, p.bytes) (slot, b)) :
    Quiet p ⟨p.streams.put key { flow with sides := flow.sides.set side slot }, b⟩ := by
  cases side with
  | initiator => exact .flow hfl h .refl
  | responder => exact .flow hfl .refl h

end Slots

/-- There is a flow for the key. -/
def Pool.touch [DecidableEq K] (p : Pool K R) (key : K) : Pool K R :=
  match p.streams.lookup key with
  | some _ => p
  | none => { p with streams := p.streams.put key (.new none) }

namespace FlowDriver

variable [SideReassembler R] [DecidableEq K] {d d' d'' : FlowDriver Φ K R}

/-- Only the flows and the pool change, and they change quietly. -/
structure Lulls (d d' : FlowDriver Φ K R) : Prop where
  quiet : Quiets d.pool d'.pool
  rest : d' = { d with streams := d'.streams, global_memcap_bytes := d'.global_memcap_bytes }

/-- Nothing happens. -/
theorem Lulls.refl (d : FlowDriver Φ K R) : Lulls d d := ⟨.refl, rfl⟩

/-- One after the other. -/
theorem Lulls.trans (h : Lulls d d') (h' : Lulls d' d'') : Lulls d d'' := by
  refine ⟨h.quiet.trans h'.quiet, ?_⟩
  rw [h'.rest, h.rest]

/-- Dropping a stream lulls. -/
theorem dropStream_lulls (d : FlowDriver Φ K R) (key : K) : Lulls d (d.dropStream key) := by
  unfold dropStream
  cases h : d.streams.lookup key with
  | none => exact .refl d
  | some flow => exact ⟨.single (.drop h), rfl⟩

/-- So does dropping the streams of all flows that ended. -/
theorem finalize_lulls (d : FlowDriver Φ K R) (events : List (FlowEvent K)) :
    Lulls d (d.finalize events) := by
  unfold finalize
  induction events generalizing d with
  | nil => exact .refl d
  | cons ev events ih =>
    rw [List.foldl_cons]
    cases ev.ending with
    | none => exact ih d
    | some e => exact (dropStream_lulls d e.1).trans (ih _)

/-- Whatever is reconciled, no packet is handed on. -/
theorem reconcile_quiet (d : FlowDriver Φ K R) : Quiets d.pool d.reconcile.pool ∧
    d.reconcile = { d with
      streams := d.reconcile.streams
      global_memcap_bytes := d.reconcile.global_memcap_bytes
      seen_gone := d.tracker.stats.flows_ended + d.tracker.forgotten } := by
  have hfo : ∀ (keys : List K) (d : FlowDriver Φ K R), Lulls d (keys.foldl dropStream d) := by
    intro keys
    induction keys with
    | nil => exact fun d => .refl d
    | cons key keys ih => exact fun d => (dropStream_lulls d key).trans (ih _)
  unfold reconcile
  dsimp only
  split_ifs with hgn
  · exact ⟨.refl, by rw [hgn]⟩
  · have h := hfo (d.streams.keys.filter fun key => !d.tracker.flows.contains key)
      { d with seen_gone := d.tracker.stats.flows_ended + d.tracker.forgotten }
    exact ⟨h.quiet, h.rest⟩

/-- Flushing a side is made of its steps. -/
theorem flushSlot_steps (emit : Bool) (side : FlowSide) (slot : SideSlot R) (b : ℕ) :
    (flushSlot emit side slot).Sat (fun r => SlotSteps (slot, b) (r.1, b)) fun _ => True := by
  cases slot with
  | live l =>
    apply sat_bind_of_ok
    intro r hr
    exact ReflTransGen.single (.flush hr b)
  | empty => exact ReflTransGen.refl
  | done stats stop reported => exact ReflTransGen.refl

/-- Closing a flow lulls. -/
theorem closeFlow_lulls (d : FlowDriver Φ K R) (key : K) (stats : FlowStats) :
    (d.closeFlow key stats).Sat (fun r => Lulls d r.1) fun _ => True := by
  unfold closeFlow
  cases h : d.streams.lookup key with
  | none => exact .refl d
  | some flow =>
    refine Sat.bind ((flushSlot_steps _ _ _ d.global_memcap_bytes).imp fun i hi => ?_)
    refine Sat.bind ((flushSlot_steps _ _ _ d.global_memcap_bytes).imp fun r hr => ?_)
    exact ⟨.single (.flow h hi hr), rfl⟩

/-- So does closing it for an event. -/
theorem closeEvent_lulls (d : FlowDriver Φ K R) (ev : FlowEvent K) :
    (d.closeEvent ev).Sat (fun r => Lulls d r.1) fun _ => True := by
  cases ev with
  | ended key reason stats history l4 =>
    refine Sat.bind ((closeFlow_lulls d key stats).imp fun r hr => ?_)
    obtain ⟨d', stats', flush⟩ := r
    dsimp only
    split_ifs
    · exact hr
    · exact hr.trans (dropStream_lulls d' key)
  | _ => exact .refl d

/-- So do all events. -/
theorem closeAll_lulls (d : FlowDriver Φ K R) (events : List (FlowEvent K)) :
    (d.closeAll events).Sat (fun r => Lulls d r.1) fun _ => True := by
  induction events generalizing d with
  | nil => exact .refl d
  | cons ev events ih =>
    refine Sat.bind ((closeEvent_lulls d ev).imp fun r hr => ?_)
    refine Sat.bind ((ih r.1).imp fun r' hr' => ?_)
    exact hr.trans hr'

/-- Time that passes for a side is made of its steps. -/
theorem advanceSlot_steps (emit : Bool) (now : Timestamp) (drain : Bool) (side : FlowSide)
    (slot : SideSlot R) (b : ℕ) :
    (advanceSlot emit now drain b side slot).Sat (fun r => SlotSteps (slot, b) (r.1, r.2.1))
      fun _ => True := by
  cases slot with
  | live l =>
    apply sat_bind_of_ok
    intro r hr
    have had : SlotStep (.live l, b) (.live { l with r }, b) := .advance hr b
    cases drain with
    | false => exact ReflTransGen.single had
    | true => exact ReflTransGen.tail (.single had) (.drain rfl b)
  | empty => exact ReflTransGen.refl
  | done stats stop reported => exact ReflTransGen.refl

/-- Time that passes for a flow lulls. -/
theorem advanceFlow_lulls (d : FlowDriver Φ K R) (now : Timestamp) (drain : Bool) (key : K) :
    (d.advanceFlow now drain key).Sat (fun r => Lulls d r.1) fun _ => True := by
  unfold advanceFlow
  cases h : d.streams.lookup key with
  | none => exact .refl d
  | some flow =>
    cases d.tracker.flows.peek key with
    | none => exact .refl d
    | some entry =>
      refine Sat.bind ((advanceSlot_steps _ _ _ _ _ _).imp fun i hi => ?_)
      refine Sat.bind ((advanceSlot_steps _ _ _ _ _ _).imp fun r hr => ?_)
      exact ⟨.single (.flow h hi hr), rfl⟩

/-- So does time that passes for all flows. -/
theorem advanceFlows_lulls (d : FlowDriver Φ K R) (now : Timestamp) (drain : Bool) (keys : List K) :
    (d.advanceFlows now drain keys).Sat (fun r => Lulls d r.1) fun _ => True := by
  induction keys generalizing d with
  | nil => exact .refl d
  | cons key keys ih =>
    refine Sat.bind ((advanceFlow_lulls d now drain key).imp fun r hr => ?_)
    refine Sat.bind ((ih r.1).imp fun r' hr' => ?_)
    exact hr.trans hr'

/-! ## The calls -/

omit [SideReassembler R] [DecidableEq K] in
/-- The clock has no part in the pool, -/
theorem pool_clampNow (d : FlowDriver Φ K R) (now : Timestamp) :
    (d.clampNow now).1.pool = d.pool := by
  unfold clampNow
  cases d.monotonic_ts <;> rfl

omit [SideReassembler R] in
/-- nor have the flows. -/
theorem pool_forceCloseRaw (d : FlowDriver Φ K R) (key : K) (now : Timestamp) :
    (d.forceCloseRaw key now).1.pool = d.pool := by
  unfold forceCloseRaw
  dsimp only
  split
  · exact pool_clampNow d now
  · exact pool_clampNow d now

variable (d : FlowDriver Φ K R)

/-- A sweep adds nothing to the pool, with events pending, -/
theorem sweepPending_quiets (now : Timestamp) (drain : Bool) :
    (d.sweepPending now drain).Sat (fun r => Quiets d.pool r.1.pool) fun _ => True := by
  rw [← pool_clampNow d now]
  refine Sat.bind ((advanceFlows_lulls _ _ drain _).imp fun r hr => ?_)
  refine Sat.bind ((closeAll_lulls _ _).imp fun r' hr' => ?_)
  exact (reconcile_quiet _).1.trans (hr.quiet.trans hr'.quiet)

/-- or on its own. -/
theorem sweep_quiets (now : Timestamp) :
    (d.sweep now).Sat (fun r => Quiets d.pool r.1.pool) fun _ => True := by
  refine Sat.bind ((sweepPending_quiets d now false).imp fun r hr => ?_)
  exact hr.trans (finalize_lulls _ _).quiet

/-- Closing flows, and letting go of them. -/
theorem closeAll_finalize_quiets (events : List (FlowEvent K)) :
    (d.closeAll events).Sat (fun r => Quiets d.pool (r.1.finalize r.2).pool) fun _ => True :=
  (closeAll_lulls d events).imp fun _ hr => hr.quiet.trans (finalize_lulls _ _).quiet

/-- The end adds nothing to the pool. -/
theorem finish_quiets : d.finish.Sat (fun r => Quiets d.pool r.1.pool) fun _ => True := by
  exact Sat.bind (closeAll_finalize_quiets _ _)

/-- The end of a flow adds nothing to the pool. -/
theorem forceClose_quiets (key : K) (now : Timestamp) :
    (d.forceClose key now).Sat (fun r => Quiets d.pool r.1.pool) fun _ => True := by
  rw [← pool_forceCloseRaw d key now]
  exact Sat.bind (closeAll_finalize_quiets _ _)

/-- Draining a side adds nothing to the pool. -/
theorem drainStream_quiets (key : K) (side : FlowSide) (out : StreamChunks) :
    Quiets d.pool (d.drainStream key side out).1.pool := by
  unfold drainStream
  cases hfl : d.streams.lookup key with
  | none => exact .refl
  | some flow =>
    dsimp only
    cases hsl : flow.sides.get side with
    | empty => exact .refl
    | live l =>
      refine .single (Quiet.side hfl ?_)
      rw [hsl]
      exact .single (.drain rfl _)
    | done stats stop reported =>
      cases reported with
      | true => exact .refl
      | false =>
        refine .single (Quiet.side hfl ?_)
        rw [hsl]
        exact .single (.discard _)

/-- Discarding a side of a flow that nothing was seen of makes an entry for the flow. -/
theorem discardSide_quiets (key : K) (side : FlowSide) :
    Quiets (d.pool.touch key) (d.discardSide key side).pool := by
  unfold discardSide Pool.touch
  cases hfl : d.streams.lookup key with
  | some flow =>
    obtain ⟨stats, stop, reported, hsl⟩ := tombstone_eq (flow.sides.get side) none
    simp only [pool, hfl, Option.getD_some, hsl]
    exact .single (Quiet.side hfl (.single (.discard _)))
  | none =>
    obtain ⟨stats, stop, reported, hsl⟩ :=
      tombstone_eq ((StreamFlow.new (R := R) none).sides.get side) none
    simp only [pool, hfl, Option.getD_none, hsl]
    have hnew : (d.streams.put key (.new none)).lookup key = some (.new none) := by
      rw [Table.lookup_put, if_pos rfl]
    rw [← Table.put_put d.streams key (.new none) { StreamFlow.new none with
        sides := (StreamFlow.new none).sides.set side (.done stats stop true) }]
    exact .single (Quiet.side hnew (.single (.discard _)))

/-- Giving up a stream adds nothing but its entry. -/
theorem discardStream_quiets (key : K) : Quiets (d.pool.touch key) (d.discardStream key).pool := by
  have hth : (d.discardSide key .initiator).pool.touch key =
      (d.discardSide key .initiator).pool := by
    rw [Pool.touch, pool, discardSide]
    rw [Table.lookup_put, if_pos rfl]
  have hrs := discardSide_quiets (d.discardSide key .initiator) key .responder
  rw [hth] at hrs
  exact (discardSide_quiets d key .initiator).trans hrs

end FlowDriver

end Flowscope
