import Flowscope.Reassembly.Basic

/-!
# Flows: sides, orientations, and how they end

The small types of `src/event.rs` and `src/extractor.rs` that the tracker, the driver and the session
layer share.
-/

namespace Flowscope

/-- Which end of a flow sent a packet: the one that sent the first packet, or the other. -/
inductive FlowSide where
  | initiator
  | responder
deriving DecidableEq, Repr

instance : ToString FlowSide where
  toString
    | .initiator => "initiator"
    | .responder => "responder"

/-- The other end. -/
def FlowSide.opposite : FlowSide → FlowSide
  | .initiator => .responder
  | .responder => .initiator

/-- Something for each side of a flow. -/
structure Sides (α : Type) where
  initiator : α
  responder : α
deriving DecidableEq, Repr

namespace Sides

variable {α : Type}

def both (a : α) : Sides α := ⟨a, a⟩

def get (s : Sides α) : FlowSide → α
  | .initiator => s.initiator
  | .responder => s.responder

def set (s : Sides α) (side : FlowSide) (a : α) : Sides α :=
  match side with
  | .initiator => { s with initiator := a }
  | .responder => { s with responder := a }

@[simp]
theorem get_both (a : α) (side : FlowSide) : (both a).get side = a := by cases side <;> rfl

@[simp]
theorem get_set (s : Sides α) (side : FlowSide) (a : α) : (s.set side a).get side = a := by
  cases side <;> rfl

theorem get_set_of_ne (s : Sides α) {side side' : FlowSide} (h : side' ≠ side) (a : α) :
    (s.set side a).get side' = s.get side' := by
  cases side <;> cases side' <;> first | rfl | exact absurd rfl h

end Sides

/-- Whether a packet runs along the key of its flow or against it. -/
inductive Orientation where
  | forward
  | reverse
deriving DecidableEq, Repr

/-- The opposite orientation. -/
def Orientation.flipped : Orientation → Orientation
  | .forward => .reverse
  | .reverse => .forward

/-- Why a flow ended, or a parser was closed. -/
inductive EndReason where
  | fin
  | rst
  | idleTimeout
  | evicted
  | bufferOverflow
  | parseError
  | parserDone
  | forceClosed
  | streamGap
deriving DecidableEq, Repr

end Flowscope
