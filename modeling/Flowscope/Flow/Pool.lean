import Flowscope.Buffered.Calls
import Flowscope.Flow.Runs
import Flowscope.Segment.Bytes

/-!
# The memory pool of a driver

A driver keeps one number for the bytes that its reassemblers hold, and changes it by what a side
holds more or less than when it was last looked at. The differences are taken by saturating
subtraction, under which an error would go unnoticed. There is none: the pool is always the sum of
what the live sides are accounted for. A subtraction that had been clipped would have left the pool
above that sum for good.

What is known of a side is a predicate `P` of its reassembler and of the bytes that it is accounted
for. `SideInvariant` is what `P` needs of the calls of a driver: nothing for the sum alone, and for
the bound on what is really held that neither a flush nor the time makes a reassembler hold more.
-/

namespace Flowscope

open Except Reassembler StreamFlow FlowDriver ReassemblerFactory Table

open Reassembler (currentBytes)

variable {Φ K R : Type}

/-- What a predicate of a side's reassembler and of the bytes that it is accounted for needs of the
calls of a driver. -/
structure SideInvariant (Φ : Type) {K R : Type} [SideReassembler R] [ReassemblerFactory Φ K R]
    (P : K → FlowSide → R → ℕ → Prop) : Prop where
  fresh (f : Φ) (key : K) (side : FlowSide) :
    ∃ a, P key side (ReassemblerFactory.newReassembler f key side).1 a
  origin {key : K} {side : FlowSide} {r : R} {a : ℕ} (h : P key side r a) (seq : Seq) :
    ∃ a, P key side (Reassembler.setOrigin r seq) a
  settle {key : K} {side : FlowSide} {r : R} {a : ℕ} (h : P key side r a) :
    P key side r (currentBytes r)
  segment {key : K} {side : FlowSide} {r : R} {a : ℕ} (h : P key side r a) (seq : Seq)
    (payload : List UInt8) (ts : Timestamp) :
    (Reassembler.segment r seq payload ts).Sat (fun r' => P key side r' (currentBytes r'))
      fun _ => True
  segmentInto {key : K} {side : FlowSide} {r : R} {a : ℕ} (h : P key side r a) (seq : Seq)
    (payload : List UInt8) (ts : Timestamp) :
    (Reassembler.segmentInto r seq payload ts).Sat
      (fun fed => P key side fed.1 (currentBytes fed.1)) fun _ => True
  missing {key : K} {side : FlowSide} {r : R} {a : ℕ} (h : P key side r a) (seq len : Seq)
    (ts : Timestamp) :
    (Reassembler.missing r seq len ts).Sat (fun r' => P key side r' (currentBytes r')) fun _ => True
  peerAck {key : K} {side : FlowSide} {r : R} {a : ℕ} (h : P key side r a) (ack : Seq)
    (ts : Timestamp) :
    (Reassembler.peerAck r ack ts).Sat (fun r' => P key side r' (currentBytes r')) fun _ => True
  finSeen {key : K} {side : FlowSide} {r : R} {a : ℕ} (h : P key side r a) (end_ : Seq)
    (ts : Timestamp) :
    (Reassembler.finSeen r end_ ts).Sat (fun r' => P key side r' (currentBytes r')) fun _ => True
  drain {key : K} {side : FlowSide} {r : R} {a : ℕ} (h : P key side r a) (out : StreamChunks) :
    P key side (Reassembler.drainInto r out).1 (currentBytes (Reassembler.drainInto r out).1)
  flush {key : K} {side : FlowSide} {r : R} {a : ℕ} (h : P key side r a) :
    (Reassembler.flushPending r).Sat (fun r' => P key side r' a) fun _ => True
  advance {key : K} {side : FlowSide} {r : R} {a : ℕ} (h : P key side r a) (now : Timestamp) :
    (Reassembler.advanceTime r now).Sat (fun r' => P key side r' a) fun _ => True

/-- Nothing is known of the sides. -/
theorem SideInvariant.trivial [SideReassembler R] [ReassemblerFactory Φ K R] :
    SideInvariant Φ fun (_ : K) (_ : FlowSide) (_ : R) (_ : ℕ) => True := by
  have hsat : ∀ {α : Type} (x : Result α), x.Sat (fun _ => True) fun _ => True := by
    intro α x
    cases x <;> trivial
  constructor <;> intros <;> first | exact ⟨0, True.intro⟩ | exact hsat _ | exact True.intro

/-! ## The sides of a flow -/

namespace StreamFlow

def All (P : FlowSide → R → ℕ → Prop) (flow : StreamFlow R) : Prop :=
  ∀ side l, flow.sides.get side = .live l → P side l.r l.accounted

variable {P : FlowSide → R → ℕ → Prop} {flow : StreamFlow R} {side : FlowSide} {slot : SideSlot R}

theorem accounted_set (flow : StreamFlow R) (side : FlowSide) (slot : SideSlot R) :
    accounted { flow with sides := flow.sides.set side slot } + (flow.sides.get side).accounted =
      flow.accounted + slot.accounted := by
  cases side with
  | initiator =>
    simp only [accounted, Sides.set, Sides.get]
    omega
  | responder =>
    simp only [accounted, Sides.set, Sides.get]
    omega

theorem all_set (hos : ∀ side' l, side' ≠ side → flow.sides.get side' = .live l →
      P side' l.r l.accounted) (hsl : ∀ l, slot = .live l → P side l.r l.accounted) :
    All P { flow with sides := flow.sides.set side slot } := by
  intro side' l hl
  by_cases hsd : side' = side
  · subst hsd
    rw [Sides.get_set] at hl
    exact hsl l hl
  · rw [Sides.get_set_of_ne _ hsd] at hl
    exact hos side' l hsd hl

theorem All.set (h : flow.All P) (hsl : ∀ l, slot = .live l → P side l.r l.accounted) :
    All P { flow with sides := flow.sides.set side slot } :=
  all_set (fun side' l _ hl => h side' l hl) hsl

theorem all_new (ports : Option (UInt16 × UInt16)) : (new ports).All P := by
  intro side l hl
  rw [new, Sides.get_both] at hl
  cases hl

end StreamFlow

/-! ## A packet -/

section Feeding

variable [SideReassembler R] [ReassemblerFactory Φ K R] {P : K → FlowSide → R → ℕ → Prop}
  {key : K}

theorem feedSegment_sat (hP : SideInvariant Φ P) {side : FlowSide} {r : R} {a : ℕ}
    (h : P key side r a) (passthrough : Bool) (data : TcpData) (ts : Timestamp) :
    (feedSegment passthrough data ts r).Sat (fun fed => P key side fed.1 (currentBytes fed.1))
      fun _ => True := by
  unfold feedSegment
  split_ifs with hem
  · exact hP.segmentInto h _ _ _
  · simp only [ok_bind]
    exact Sat.bind ((hP.missing h _ _ _).imp fun _ hr => hr)
  · refine Sat.bind ((hP.segment h _ _ _).imp fun r' hr' => ?_)
    exact Sat.bind ((hP.missing hr' _ _ _).imp fun _ hr => hr)
  · exact hP.settle h
  · exact Sat.bind ((hP.segment h _ _ _).imp fun _ hr => hr)

theorem feedData_sat (hP : SideInvariant Φ P) {side : FlowSide} {r : R} {a : ℕ}
    (h : P key side r a) (passthrough : Bool) (data : TcpData) (fin_end : Option Seq)
    (ts : Timestamp) :
    (feedData passthrough data fin_end ts r).Sat (fun fed => P key side fed.1 (currentBytes fed.1))
      fun _ => True := by
  refine Sat.bind ((feedSegment_sat hP h passthrough data ts).imp fun fed hfed => ?_)
  cases fin_end with
  | none => exact hfed
  | some end_ => exact Sat.bind ((hP.finSeen hfed end_ ts).imp fun _ hr => hr)

namespace FeedState

/-- The pool is what this flow is accounted for and `rest` of the others, and `P` is known of the
sides. -/
structure Holds (P : FlowSide → R → ℕ → Prop) (rest : ℕ) (s : FeedState Φ R) : Prop where
  sum : s.global = s.flow.accounted + rest
  all : s.flow.All P

variable {rest : ℕ} {s : FeedState Φ R} {side : FlowSide}

omit [ReassemblerFactory Φ K R] in
/-- A side is accounted for anew, whatever was known of it before. -/
theorem resync_holds {r : R} {a : ℕ} (hsum : s.global = s.flow.accounted + rest)
    (hos : ∀ side' l, side' ≠ side → s.flow.sides.get side' = .live l → P key side' l.r l.accounted)
    (ha : a = (s.slot side).accounted) (hr : P key side r (currentBytes r)) :
    (s.resync side a r).Holds (P key) rest := by
  constructor
  · have hset := s.flow.accounted_set side (.live ⟨r, currentBytes r⟩)
    have hsl : (SideSlot.live ⟨r, currentBytes r⟩).accounted = currentBytes r := rfl
    simp only [resync, setSlot]
    rw [slot] at ha
    have hget : (s.flow.sides.get side).accounted ≤ s.flow.accounted := by
      cases side <;> simp only [Sides.get, accounted] <;> omega
    omega
  · apply all_set hos
    intro l hl
    cases hl
    exact hr

omit [ReassemblerFactory Φ K R] in
theorem release_holds (h : s.Holds (P key) rest) (side : FlowSide) :
    (s.release side).Holds (P key) rest := by
  obtain ⟨stats, stop, reported, hrl⟩ := tombstone_eq (s.slot side) (some .memcap)
  have hset := s.flow.accounted_set side (.done stats stop reported)
  have hdn : (SideSlot.done stats stop reported : SideSlot R).accounted = 0 := rfl
  constructor
  · simp only [release, setSlot, hrl]
    have hsum := h.sum
    rw [slot]
    omega
  · simp only [release, hrl]
    apply h.all.set
    intro l hl
    cases hl

omit [ReassemblerFactory Φ K R] in
theorem enforceMemcap_holds (h : s.Holds (P key) rest) (cfg : TcpFeed) (side : FlowSide) :
    (s.enforceMemcap cfg side).Holds (P key) rest := by
  have htr : ∀ tripped, Holds (P key) rest { s with tripped } := fun _ => ⟨h.sum, h.all⟩
  unfold enforceMemcap
  cases cfg.memcap_cap with
  | none => exact h
  | some cap =>
    dsimp only
    split_ifs
    · exact h
    · cases cfg.memcap_policy with
      | ignore => exact htr _
      | dropPacket => exact htr _
      | passThrough => exact release_holds (htr _) side
      | dropFlow => exact release_holds (release_holds (htr _) side) side.opposite

variable (hP : SideInvariant Φ P)
include hP

section

variable (h : s.Holds (P key) rest)
include h

theorem ackPeer_holds (cfg : TcpFeed) (side : FlowSide) (tcp : TcpInfo) (ts : Timestamp) :
    (s.ackPeer cfg side tcp ts).Sat (Holds (P key) rest) fun _ => True := by
  unfold ackPeer
  split
  · next l _ hsl =>
    refine Sat.bind ((hP.peerAck (h.all _ l hsl) _ ts).imp fun r hr => ?_)
    have hrc := resync_holds (a := l.accounted) h.sum (fun side' l _ hl => h.all side' l hl)
      (by rw [hsl]; rfl) hr
    exact ⟨hrc.sum, hrc.all⟩
  · exact h

theorem finOnly_holds (side : FlowSide) (fin_end : Option Seq) (ts : Timestamp) :
    (s.finOnly side fin_end ts).Sat (Holds (P key) rest) fun _ => True := by
  unfold finOnly
  split
  · next end_ l hsl =>
    refine Sat.bind ((hP.finSeen (h.all _ l hsl) end_ ts).imp fun r hr => ?_)
    exact resync_holds h.sum (fun side' l _ hl => h.all side' l hl) (by rw [hsl]; rfl) hr
  · exact h

/-- Of a side that has just got its reassembler, only that the reassembler is sound is known. -/
theorem openSide_holds (side : FlowSide) :
    (s.openSide key side).global = (s.openSide key side).flow.accounted + rest ∧
      (∀ side' l, side' ≠ side → (s.openSide key side).flow.sides.get side' = .live l →
        P key side' l.r l.accounted) ∧
      ∀ l, (s.openSide key side).slot side = .live l → ∃ a, P key side l.r a := by
  unfold openSide
  split
  · next hsl =>
    obtain ⟨a, ha⟩ := hP.fresh s.factory key side
    refine ⟨?_, fun side' l hsd hl => ?_, fun l hl => ?_⟩
    · have hem : (s.flow.sides.get side).accounted = 0 := by
        rw [← slot, hsl]
        rfl
      have hset : ∀ r : R, accounted
          { s.flow with sides := s.flow.sides.set side (.live ⟨r, 0⟩) } = s.flow.accounted := by
        intro r
        have hset := s.flow.accounted_set side (.live ⟨r, 0⟩)
        rwa [hem] at hset
      simp only [setSlot]
      rw [hset, h.sum]
    · simp only [setSlot, Sides.get_set_of_ne _ hsd] at hl
      exact h.all side' l hl
    · simp only [slot, setSlot, Sides.get_set] at hl
      cases hl
      cases s.flow.origin.get side with
      | some origin => exact hP.origin ha origin
      | none => exact ⟨a, ha⟩
  · exact ⟨h.sum, fun side' l _ hl => h.all side' l hl, fun l hl => ⟨_, h.all side l hl⟩⟩

end

theorem deliver_holds (hsum : s.global = s.flow.accounted + rest)
    (hos : ∀ side' l, side' ≠ side → s.flow.sides.get side' = .live l → P key side' l.r l.accounted)
    (hsd : ∀ l, s.slot side = .live l → ∃ a, P key side l.r a) (cfg : TcpFeed) (data : TcpData)
    (fin_end : Option Seq) (ts : Timestamp) :
    (s.deliver cfg side data fin_end ts).Sat (Holds (P key) rest) fun _ => True := by
  unfold deliver
  cases hsl : s.slot side with
  | live l =>
    obtain ⟨a, ha⟩ := hsd l hsl
    have hst := resync_holds (a := l.accounted) hsum hos (by rw [hsl]; rfl)
      (hP.settle ha)
    dsimp only
    split_ifs
    · exact ⟨hst.sum, hst.all⟩
    · refine Sat.bind ((feedData_sat hP ha _ data fin_end ts).imp fun fed hfed => ?_)
      have hfd' := resync_holds hst.sum
        (fun side' l _ hl => hst.all side' l hl)
        (by simp only [resync, setSlot, slot, Sides.get_set]; rfl) hfed
      apply enforceMemcap_holds
      exact ⟨hfd'.sum, hfd'.all⟩
  | empty | done stats stop reported =>
    refine ⟨hsum, fun side' l hl => ?_⟩
    by_cases hne : side' = side
    · rw [hne, ← slot, hsl] at hl
      cases hl
    · exact hos side' l hne hl

theorem feedFlow_holds {p : PacketContext K} (h : s.Holds (P p.key) rest)
    (cfg : TcpFeed) (tcp : TcpInfo) :
    (s.feedFlow cfg p tcp).Sat (Holds (P p.key) rest) fun _ => True := by
  have hor : Holds (P p.key) rest (if tcp.flags.syn then
      { s with flow.origin := s.flow.origin.set p.side (some (tcpData p tcp).seq) } else s) := by
    split_ifs
    · exact ⟨h.sum, h.all⟩
    · exact h
  refine Sat.bind ((ackPeer_holds hP hor cfg p.side tcp p.ts).imp fun s' h' => ?_)
  split_ifs
  · exact finOnly_holds hP h' p.side _ p.ts
  · obtain ⟨hsum, hos, hsd⟩ := openSide_holds hP h' p.side
    exact deliver_holds hP hsum hos hsd cfg _ _ p.ts

end FeedState

end Feeding

/-! ## The pool -/

section Slots

variable [SideReassembler R] [ReassemblerFactory Φ K R] {P : K → FlowSide → R → ℕ → Prop}
  {key : K} {side : FlowSide} {rest : ℕ}

/-- The pool is what this side is accounted for and `rest` of the others, and `P` is known of it. -/
def SlotHolds (P : R → ℕ → Prop) (rest : ℕ) (x : SideSlot R × ℕ) : Prop :=
  x.2 = x.1.accounted + rest ∧ ∀ l, x.1 = .live l → P l.r l.accounted

theorem SlotStep.holds (hP : SideInvariant Φ P) {x y : SideSlot R × ℕ} (hstp : SlotStep x y)
    (h : SlotHolds (P key side) rest x) : SlotHolds (P key side) rest y := by
  obtain ⟨hsum, hlv⟩ := h
  -- the bytes that a live side is accounted for are part of the pool
  cases hstp with
  | @flush l r call b =>
    refine ⟨hsum, fun l' hl' => ?_⟩
    cases hl'
    exact (hP.flush (hlv l rfl)).of_ok call
  | @advance l r now call b =>
    refine ⟨hsum, fun l' hl' => ?_⟩
    cases hl'
    exact (hP.advance (hlv l rfl) now).of_ok call
  | @drain l r out call b =>
    refine ⟨?_, fun l' hl' => ?_⟩
    · simp only [SideSlot.accounted] at hsum ⊢
      omega
    · cases hl'
      rw [← call]
      exact hP.drain (hlv l rfl) out
  | @discard slot stats stop reported b =>
    refine ⟨?_, fun l hl => ?_⟩
    · dsimp only at hsum ⊢
      have hdn : (SideSlot.done stats stop reported : SideSlot R).accounted = 0 := rfl
      omega
    · cases hl

theorem SlotSteps.holds (hP : SideInvariant Φ P) {x y : SideSlot R × ℕ} (hss : SlotSteps x y)
    (h : SlotHolds (P key side) rest x) : SlotHolds (P key side) rest y := by
  induction hss with
  | refl => exact h
  | tail _ hstp ih => exact hstp.holds hP ih

end Slots

namespace Pool

variable [DecidableEq K] {P : K → FlowSide → R → ℕ → Prop} {p p' : Pool K R}

/-- The pool is what all sides are accounted for, and `P` is known of them. -/
structure Holds (P : K → FlowSide → R → ℕ → Prop) (p : Pool K R) : Prop where
  sum : p.bytes = p.streams.total fun _ flow => flow.accounted
  all : ∀ key flow, p.streams.lookup key = some flow → flow.All (P key)

theorem touch_holds (h : p.Holds P) (key : K) : (p.touch key).Holds P := by
  unfold touch
  cases hfl : p.streams.lookup key with
  | some flow => exact h
  | none =>
    constructor
    · rw [total_put_of_none _ hfl, h.sum]
      rfl
    · intro key' flow hlk
      rw [lookup_put] at hlk
      split_ifs at hlk with hkey
      · cases hlk
        exact all_new none
      · exact h.all key' flow hlk

variable {flow : StreamFlow R} {key : K} {bytes : ℕ}

variable (h : p.Holds P) (hfl : p.streams.lookup key = some flow)
include h hfl

/-- A flow is replaced, and the pool is that of the new one and of the others. -/
theorem Holds.put {flow' : StreamFlow R}
    (hsum : bytes + flow.accounted = p.bytes + flow'.accounted) (hall : flow'.All (P key)) :
    Holds P ⟨p.streams.put key flow', bytes⟩ := by
  constructor
  · have hput := total_put_of_some (v := flow') (fun _ flow => flow.accounted) hfl
    have hsm' := h.sum
    dsimp only at hput ⊢
    omega
  · intro key' flow'' hlk
    rw [lookup_put] at hlk
    split_ifs at hlk with hkey
    · cases hlk
      rw [hkey]
      exact hall
    · exact h.all key' flow'' hlk

theorem Holds.erase (hsum : bytes + flow.accounted = p.bytes) :
    Holds P ⟨p.streams.erase key, bytes⟩ := by
  constructor
  · have her := total_erase (fun _ flow => flow.accounted) hfl
    have hsm' := h.sum
    dsimp only at her ⊢
    omega
  · intro key' flow' hlk
    rw [lookup_erase_eq] at hlk
    split_ifs at hlk with hkey
    exact h.all key' flow' hlk

/-- What a flow is accounted for is part of the pool. -/
theorem Holds.le : flow.accounted ≤ p.bytes := by
  rw [h.sum]
  exact le_total (fun _ flow => flow.accounted) hfl

end Pool

section Quiet

variable [SideReassembler R] [ReassemblerFactory Φ K R] [DecidableEq K]
  {P : K → FlowSide → R → ℕ → Prop} {p p' : Pool K R}

theorem Quiet.holds (hP : SideInvariant Φ P) (hqt : Quiet p p') (h : p.Holds P) : p'.Holds P := by
  cases hqt with
  | @flow key flow i r b b' lookup initiator responder =>
    have hle := h.le lookup
    have hall := h.all key flow lookup
    have hfl : flow.accounted =
      flow.sides.initiator.accounted + flow.sides.responder.accounted := rfl
    obtain ⟨rest, hrs⟩ := Nat.exists_eq_add_of_le hle
    have hi : SlotHolds (P key .initiator) (flow.sides.responder.accounted + rest) (i, b) :=
      initiator.holds hP ⟨by dsimp only; omega, fun l hl => hall .initiator l hl⟩
    have hr : SlotHolds (P key .responder) (i.accounted + rest) (r, b') :=
      responder.holds hP ⟨by have := hi.1; dsimp only at *; omega,
        fun l hl => hall .responder l hl⟩
    apply h.put lookup
    · have hsum := hr.1
      simp only [accounted] at hrs ⊢
      dsimp only at hsum
      omega
    · intro side l hl
      cases side with
      | initiator => exact hi.2 l hl
      | responder => exact hr.2 l hl
  | @drop key flow lookup =>
    have hle := h.le lookup
    apply h.erase lookup
    simp only [accounted] at hle ⊢
    omega

theorem Quiets.holds (hP : SideInvariant Φ P) (hqs : Quiets p p') (h : p.Holds P) : p'.Holds P := by
  induction hqs with
  | refl => exact h
  | tail _ hqt ih => exact hqt.holds hP ih

end Quiet

/-! ## Packets -/

namespace FlowDriver

variable [SideReassembler R] [ReassemblerFactory Φ K R] [DecidableEq K]
  {P : K → FlowSide → R → ℕ → Prop} {d : FlowDriver Φ K R}

variable (hP : SideInvariant Φ P) (h : d.pool.Holds P) (want : PacketContext K → Bool)
include hP h

theorem feedTcp_holds (p : PacketContext K) (tcp : TcpInfo) :
    (d.feedTcp want p tcp).Sat (fun r => r.1.pool.Holds P) fun _ => True := by
  unfold feedTcp
  cases hlk : d.streams.lookup p.key with
  | some flow =>
    obtain ⟨rest, hrs⟩ := Nat.exists_eq_add_of_le (h.le hlk)
    have hfd : (⟨flow, d.factory, d.global_memcap_bytes, none, [], none⟩ : FeedState Φ R).Holds
      (P p.key) rest := ⟨hrs, h.all p.key flow hlk⟩
    refine Sat.bind ((FeedState.feedFlow_holds hP hfd d.tcpFeed tcp).imp fun s hs => ?_)
    have hsum : s.global + flow.accounted = d.global_memcap_bytes + s.flow.accounted := by
      have hsum := hs.sum
      change d.global_memcap_bytes = _ at hrs
      omega
    exact h.put hlk hsum hs.all
  | none =>
    split_ifs
    · have hfd : (⟨.new p.ports, d.factory, d.global_memcap_bytes, none, [], none⟩ :
          FeedState Φ R).Holds (P p.key) d.global_memcap_bytes :=
        ⟨(Nat.zero_add _).symm, all_new _⟩
      refine Sat.bind ((FeedState.feedFlow_holds hP hfd d.tcpFeed tcp).imp fun s hs => ?_)
      constructor
      · have hsum : d.global_memcap_bytes = d.streams.total fun _ flow => flow.accounted := h.sum
        show s.global = total (d.streams.put p.key s.flow) _
        rw [total_put_of_none _ hlk, hs.sum]
        omega
      · intro key flow hfl
        change (d.streams.put p.key s.flow).lookup key = _ at hfl
        rw [lookup_put] at hfl
        split_ifs at hfl with hkey
        · cases hfl
          rw [hkey]
          exact hs.all
        · exact h.all key flow hfl
    · exact h

theorem feedPacket_holds (p : Option (PacketContext K)) :
    (d.feedPacket want p).Sat (fun r => r.1.pool.Holds P) fun _ => True := by
  cases p with
  | none => exact h
  | some p =>
    have hdr : (if p.is_new then d.dropStream p.key else d).pool.Holds P := by
      split_ifs
      · exact Quiets.holds hP (dropStream_lulls d p.key).quiet h
      · exact h
    unfold feedPacket
    dsimp only
    cases p.tcp with
    | none => exact hdr
    | some tcp => exact Sat.bind ((feedTcp_holds hP hdr want p tcp).imp fun _ hr => hr)

end FlowDriver

/-! ## The built-in reassemblers -/

/-- The states that calls lead to. -/
inductive Reached [Reassembler R] (r₀ : R) : R → Prop
  | refl : Reached r₀ r₀
  | call {r r' : R} {c : Call} {out out' : StreamChunks} (h : Reached r₀ r)
      (hcall : c.exec (r, out) = .ok (r', out')) : Reached r₀ r'

/-- The states of the built-in reassemblers. -/
inductive BuiltIn : {R : Type} → [SideReassembler R] → R → Prop
  | segmentBuffer {config : Config} {max_ooo_buffer : ℕ} {policy : TcpOverlapPolicy}
      {s : SegmentBufferReassembler}
      (h : Reached (SegmentBufferReassembler.new config max_ooo_buffer policy) s) : BuiltIn s
  | buffered {config : Config} {s : BufferedReassembler}
    (h : Reached (BufferedReassembler.new config) s) :
      BuiltIn s

theorem Reached.fine {config : Config} {max_ooo_buffer : ℕ} {policy : TcpOverlapPolicy}
    {s : SegmentBufferReassembler}
    (h : Reached (SegmentBufferReassembler.new config max_ooo_buffer policy) s) : s.Fine .any := by
  induction h with
  | refl => exact SegmentBufferReassembler.fine_new _ _ _
  | call _ hcall ih =>
    exact ((SegmentBufferReassembler.exec_sat (E := fun _ => True) Frame.refeeds_any (.inr trivial)
      (Frame.places_any _) (.inr trivial) ih (Frame.knows_any _ _)).of_ok hcall).fine

theorem Reached.buffered_fine {config : Config} {s : BufferedReassembler}
    (h : Reached (BufferedReassembler.new config) s) : s.Fine .any := by
  induction h with
  | refl => exact BufferedReassembler.fine_new _
  | call _ hcall ih =>
    exact ((BufferedReassembler.exec_sat (E := fun _ => True) (.inr trivial) (Frame.places_any _) ih
      (Frame.knows_any _ _)).of_ok hcall).fine

namespace BuiltIn

variable [SideReassembler R] {r : R}

theorem exec (h : BuiltIn r) (c : Call) (out : StreamChunks) :
    (c.exec (r, out)).Sat (fun s => BuiltIn s.1) fun _ => True := by
  cases hcall : c.exec (r, out) with
  | error e => trivial
  | ok s =>
    cases h with
    | segmentBuffer h => exact .segmentBuffer (h.call hcall)
    | buffered h => exact .buffered (h.call hcall)

/-- The state after a call that returns nothing but the state. -/
theorem kept (h : BuiltIn r) {c : Call} {x : Result R}
    (hx : c.exec (r, .new) = x >>= fun r' => pure (r', .new)) : x.Sat BuiltIn fun _ => True := by
  have hex := h.exec c .new
  rw [hx] at hex
  cases x with
  | ok r' => exact hex
  | error e => trivial

/-- A flush holds nothing more. -/
theorem flush_bytes (h : BuiltIn r) :
    (flushPending r).Sat (fun r' => currentBytes r' ≤ currentBytes r) fun _ => True := by
  cases h with
  | segmentBuffer h =>
    exact (SegmentBufferReassembler.flushPending_sheds h.fine).imp fun _ ht => ht.bytes
  | buffered h => exact (BufferedReassembler.flushPending_steps h.buffered_fine).1.bytes

/-- Time holds nothing more. -/
theorem advance_bytes (h : BuiltIn r) (now : Timestamp) :
    (advanceTime r now).Sat (fun r' => currentBytes r' ≤ currentBytes r)
      fun _ => True := by
  cases h with
  | segmentBuffer h =>
    exact (SegmentBufferReassembler.checkTimers_sheds h.fine now).imp fun _ ht => ht.bytes
  | buffered h =>
    exact (BufferedReassembler.checkTimers_sat (.inr trivial) h.buffered_fine now).imp
      fun _ ht => ht.bytes

/-- The built-in reassemblers of the sides in `S` hold no more than they are accounted for. -/
theorem sideInvariant [ReassemblerFactory Φ K R]
    (hmd : ∀ (f : Φ) (key : K) side, BuiltIn (newReassembler f key side).1)
    (S : K → FlowSide → Bool) :
    SideInvariant Φ fun (key : K) side (r : R) a =>
      BuiltIn r ∧ (S key side = true → currentBytes r ≤ a) where
  fresh f key side := ⟨_, hmd f key side, fun _ => le_rfl⟩
  origin {_ _ _ _} h seq := ⟨_, h.1.exec (.setOrigin seq) .new, fun _ => le_rfl⟩
  settle h := ⟨h.1, fun _ => le_rfl⟩
  segment h seq payload ts :=
    (h.1.kept (c := .segment seq payload ts) rfl).imp fun _ hr => ⟨hr, fun _ => le_rfl⟩
  segmentInto {_ _ r _} h seq payload ts := by
    have hex := h.1.exec (.segmentInto seq payload ts) .new
    unfold Call.exec at hex
    dsimp only at hex
    cases hcall : segmentInto r seq payload ts with
    | error e => trivial
    | ok fed =>
      obtain ⟨r', outcome⟩ := fed
      rw [hcall] at hex
      refine ⟨?_, fun _ => le_rfl⟩
      cases outcome with
      | buffered => exact hex
      | passthrough skip => exact hex
  missing h seq len ts :=
    (h.1.kept (c := .missing seq len ts) rfl).imp fun _ hr => ⟨hr, fun _ => le_rfl⟩
  peerAck h ack ts :=
    (h.1.kept (c := .peerAck ack ts) rfl).imp fun _ hr => ⟨hr, fun _ => le_rfl⟩
  finSeen h end_ ts :=
    (h.1.kept (c := .finSeen end_ ts) rfl).imp fun _ hr => ⟨hr, fun _ => le_rfl⟩
  drain h out := ⟨h.1.exec .drainInto out, fun _ => le_rfl⟩
  flush h := by
    refine ((h.1.kept (c := .flushPending) rfl).and h.1.flush_bytes).imp fun r hr => ?_
    exact ⟨hr.1, fun hS => hr.2.trans (h.2 hS)⟩
  advance h now := by
    refine ((h.1.kept (c := .advanceTime now) rfl).and (h.1.advance_bytes now)).imp fun r hr => ?_
    exact ⟨hr.1, fun hS => hr.2.trans (h.2 hS)⟩

end BuiltIn

/-! ## Runs -/

def SideSlot.heldBytes [SideReassembler R] : SideSlot R → ℕ
  | .live l => currentBytes l.r
  | _ => 0

/-- What the reassemblers of the sides in `S` hold. -/
def StreamFlow.heldBytes [SideReassembler R] (S : FlowSide → Bool) (flow : StreamFlow R) : ℕ :=
  (if S .initiator then flow.sides.initiator.heldBytes else 0) +
    if S .responder then flow.sides.responder.heldBytes else 0

/-- What all reassemblers of the sides in `S` hold. -/
def FlowDriver.heldBytes [SideReassembler R] (d : FlowDriver Φ K R) (S : K → FlowSide → Bool) : ℕ :=
  d.streams.total fun key flow => flow.heldBytes (S key)

variable [DecidableEq K]

/-- The pool is the sum of what the live sides are accounted for. -/
structure FlowDriver.PoolExact (d : FlowDriver Φ K R) : Prop where
  sum : d.global_memcap_bytes = d.streams.total fun _ flow => flow.accounted
  /-- What is refunded for a flow is there. -/
  refund : ∀ key flow, d.streams.lookup key = some flow → flow.accounted ≤ d.global_memcap_bytes
  idle : d.streamCount = 0 → d.global_memcap_bytes = 0

variable {P : K → FlowSide → R → ℕ → Prop} {d : FlowDriver Φ K R}

theorem Pool.Holds.exact (h : d.pool.Holds P) : d.PoolExact := by
  refine ⟨h.sum, fun key flow hfl => h.le hfl, fun hct => ?_⟩
  have hsum : d.global_memcap_bytes = d.streams.total fun _ flow => flow.accounted := h.sum
  have hem : d.streams.entries = [] := List.length_eq_zero_iff.mp hct
  rw [hsum, total, hem]
  rfl

variable [SideReassembler R]

/-- What is held is part of what is accounted for. -/
theorem Pool.Holds.heldBytes_le {S : K → FlowSide → Bool}
    (h : d.pool.Holds fun key side r a => BuiltIn r ∧ (S key side = true → currentBytes r ≤ a)) :
    d.heldBytes S ≤ d.global_memcap_bytes := by
  have hsum : d.global_memcap_bytes = d.streams.total fun _ flow => flow.accounted := h.sum
  rw [hsum]
  apply total_le_total
  intro key flow hfl
  have hsl : ∀ side, (if S key side then (flow.sides.get side).heldBytes else 0) ≤
      (flow.sides.get side).accounted := by
    intro side
    split_ifs with hS
    · cases hget : flow.sides.get side with
      | live l => exact (h.all key flow hfl side l hget).2 hS
      | empty => exact le_rfl
      | done stats stop reported => exact le_rfl
    · exact Nat.zero_le _
  exact Nat.add_le_add (hsl .initiator) (hsl .responder)

omit [SideReassembler R] in
/-- What a caller does with a reassembler keeps what is known of the others. -/
theorem Pool.Holds.withReassembler (h : d.pool.Holds P) {key : K} {side : FlowSide} {f : R → R}
    (hf : ∀ flow l, d.streams.lookup key = some flow → flow.sides.get side = .live l →
      P key side (f l.r) l.accounted) : (d.withReassembler key side f).pool.Holds P := by
  unfold FlowDriver.withReassembler
  cases hfl : d.streams.lookup key with
  | none => exact h
  | some flow =>
    dsimp only
    cases hsl : flow.sides.get side with
    | empty => exact h
    | done stats stop reported => exact h
    | live l =>
      refine h.put hfl ?_ ((h.all key flow hfl).set fun l' hl' => ?_)
      · have hset := flow.accounted_set side (.live { l with r := f l.r })
        rw [hsl] at hset
        have hsm := Nat.add_right_cancel hset
        rw [hsm]
        rfl
      · cases hl'
        exact hf flow l hfl hsl

variable [ReassemblerFactory Φ K R]

namespace DriverOp

/-- The caller keeps a built-in reassembler, and does not make it hold more if its side is in `S`. -/
def Spares (S : K → FlowSide → Bool) (op : DriverOp K R)
    (s : FlowDriver Φ K R × List (FlowEvent K)) : Prop :=
  match op with
  | .reassembler key side f => ∀ flow l, s.1.streams.lookup key = some flow →
      flow.sides.get side = .live l →
      (BuiltIn l.r → BuiltIn (f l.r)) ∧
        (S key side = true → currentBytes (f l.r) ≤ currentBytes l.r)
  | _ => True

theorem call_holds (hP : SideInvariant Φ P) {op : DriverOp K R}
    (hod : ∀ key side f, op = .reassembler key side f →
      ∀ flow l, d.streams.lookup key = some flow → flow.sides.get side = .live l →
        P key side (f l.r) l.accounted) (h : d.pool.Holds P) :
    (op.call d).Sat (fun r => r.1.pool.Holds P) fun _ => True := by
  apply call_sat
  · exact fun p p' hqs hp => hqs.holds hP hp
  · exact fun p key hp => Pool.touch_holds hp key
  · intro view _ want tracker events p _ d' hpl _
    exact feedPacket_holds hP (hpl ▸ h) want p
  · exact fun key side f hop => h.withReassembler (hod key side f hop)
  · exact h

/-- What is known of the sides of a new driver, of which there are none, is known along a run. -/
theorem runs_holds (hP : SideInvariant Φ P) (tracker : FlowTracker K) (factory : Φ)
    (settings : DriverSettings) {G : DriverOp K R → FlowDriver Φ K R × List (FlowEvent K) → Prop}
    (hod : ∀ key side f s, G (.reassembler key side f) s → ∀ flow l,
      s.1.streams.lookup key = some flow → flow.sides.get side = .live l →
        P key side l.r l.accounted → P key side (f l.r) l.accounted)
    {ops : List (DriverOp K R)}
    (hal : Along exec G ops (start tracker factory settings, [])) :
    (runs exec ops (start tracker factory settings, [])).Sat
      (fun s => s.1.pool.Holds P) fun _ => True := by
  refine runs_sat (fun op s hop hs => exec_sat (call_holds hP ?_ hs)) hal ⟨rfl, ?_⟩
  · rintro key side f rfl flow l hfl hsl
    exact hod key side f s hop flow l hfl hsl (hs.all key flow hfl side l hsl)
  · intro key flow hfl
    cases hfl

/-- In every state between the calls of a run, the pool is the sum of what the live sides are
accounted for, so that no refund is clipped and nothing is left when no flow is. Where the
reassemblers are built-in ones, it is no less than what those hold whose bytes did not grow outside
the driver. -/
theorem runs_pool (tracker : FlowTracker K) (factory : Φ) (settings : DriverSettings)
    (ops : List (DriverOp K R)) :
    (Except.runs exec ops (FlowDriver.start tracker factory settings, [])).Sat
      (fun s : FlowDriver Φ K R × List (FlowEvent K) => s.1.PoolExact) (fun _ => True) ∧
    ∀ S : K → FlowSide → Bool,
      (∀ (f : Φ) (key : K) side, BuiltIn (ReassemblerFactory.newReassembler f key side).1) →
      Except.Along exec (Spares S) ops (FlowDriver.start tracker factory settings, []) →
      (Except.runs exec ops (FlowDriver.start tracker factory settings, [])).Sat
        (fun s : FlowDriver Φ K R × List (FlowEvent K) =>
          s.1.heldBytes S ≤ s.1.global_memcap_bytes) fun _ => True := by
  constructor
  · refine (runs_holds (G := fun _ _ => True) SideInvariant.trivial tracker factory settings ?_
      ?_).imp fun s hs => hs.exact
    · exact fun _ _ _ _ _ _ _ _ _ h => h
    · exact Along.of_forall (fun _ _ => trivial) _
  · intro S hmd hal
    refine (runs_holds (BuiltIn.sideInvariant hmd S) tracker factory settings ?_ hal).imp
      fun s hs => hs.heldBytes_le
    intro key side f s hop flow l hfl hsl h
    obtain ⟨hbl, hsr⟩ := hop flow l hfl hsl
    exact ⟨hbl h.1, fun hS => (hsr hS).trans (h.2 hS)⟩

/-- A packet out of order, and a caller who looks at the reassembler. -/
def lookedAt : List (DriverOp UInt8 SegmentBufferReassembler) :=
  [.track (miniPacket 1 0 2 99 0 [] .zero), .track (miniPacket 1 0 0 103 0 [7] .zero),
    .reassembler 1 .initiator id]

theorem runs_pool_lookedAt :
    (Except.runs exec lookedAt (FlowDriver.start (FlowTracker.withConfig miniExtract .default)
      miniFactory ⟨false, none, false, false⟩, [])).Sat
      (fun s : FlowDriver _ UInt8 SegmentBufferReassembler × List (FlowEvent UInt8) =>
        s.1.heldBytes (fun _ _ => true) ≤ s.1.global_memcap_bytes) fun _ => True := by
  have hsp : ∀ s : FlowDriver SegmentBufferReassemblerFactory UInt8 SegmentBufferReassembler ×
      List (FlowEvent UInt8), Along exec (Spares fun _ _ => true) lookedAt s := by
    intro s
    refine ⟨trivial, fun _ _ => ⟨trivial, fun _ _ => ⟨fun flow l _ _ => ?_, fun _ _ => trivial⟩⟩⟩
    exact ⟨id, fun _ => le_rfl⟩
  exact (runs_pool (FlowTracker.withConfig miniExtract .default) miniFactory
    ⟨false, none, false, false⟩ lookedAt).2 _ (fun f _ _ => .segmentBuffer .refl) (hsp _)

end DriverOp

end Flowscope
