import Flowscope.Buffered.Calls
import Flowscope.Segment.Calls
import Mathlib.Data.BitVec

/-!
# The placement of the bytes

Walking what a consumer has collected from the anchor, every byte is one that a segment carried at
that offset, and the walk ends at or before the largest offset that a call covered
(`no_byte_misplaced`). Each move keeps the placement (`Placed.move`): bytes are delivered at the
stream position, which is where the walk ends, a skip pushes as many positions as it moves the
stream, and what the sliding window drops turns into a gap of the same length.

A call names 32-bit numbers. They determine the offsets as long as all of these lie in a window of
fewer than `2^31` (`Window`); numbers that are `2^31` apart do not say which one is ahead, and then a
byte behind the anchor can be delivered `2^32` past its offset (`byte_misplaced_outside_window`).
-/

namespace Flowscope

open List SegmentBufferReassembler StreamChunks Serial Call

/-! ## Placed bytes -/

section

variable {F : Frame} {n : ℕ} {w w' : List (Option UInt8)}

/-- The bytes of a walk from offset `n` were carried where they are placed. -/
def Frame.CarriesPlaced (F : Frame) (n : ℕ) (w : List (Option UInt8)) : Prop :=
  ∀ i b, w[i]? = some (some b) → F.carried (n + i) b

theorem Frame.CarriesPlaced.append (h : F.CarriesPlaced n w)
    (h' : F.CarriesPlaced (n + w.length) w') : F.CarriesPlaced n (w ++ w') := by
  intro i b hb
  rw [getElem?_append] at hb
  split_ifs at hb with hi
  · exact h i b hb
  · have := h' (i - w.length) b hb
    rwa [show n + w.length + (i - w.length) = n + i by omega] at this

theorem Frame.CarriesPlaced.left (h : F.CarriesPlaced n (w ++ w')) : F.CarriesPlaced n w := by
  intro i b hb
  refine h i b ?_
  rw [List.getElem?_append_left (List.getElem?_eq_some_iff.mp hb).1]
  exact hb

theorem Frame.CarriesPlaced.right (h : F.CarriesPlaced n (w ++ w')) :
    F.CarriesPlaced (n + w.length) w' := by
  intro i b hb
  have := h (w.length + i) b (by
    rw [getElem?_append_right (Nat.le_add_right _ _), Nat.add_sub_cancel_left]
    exact hb)
  rwa [← Nat.add_assoc] at this

theorem Frame.carriesPlaced_gap (F : Frame) (n k : ℕ) :
    F.CarriesPlaced n (List.replicate k none) := by
  intro i b hb
  rw [getElem?_replicate] at hb
  split_ifs at hb
  cases hb

theorem Frame.CarriesAt.placed {data : List UInt8} (h : F.CarriesAt n data) :
    F.CarriesPlaced n (data.map some) := by
  intro i b hb
  rw [getElem?_map, Option.map_eq_some_iff] at hb
  obtain ⟨b', hb', heq⟩ := hb
  obtain rfl := Option.some.inj heq
  exact h i _ hb'

theorem Frame.CarriesPlaced.drop (h : F.CarriesPlaced n w) (k : ℕ) :
    F.CarriesPlaced (n + k) (w.drop k) := by
  intro i b hb
  rw [getElem?_drop] at hb
  have := h (k + i) b hb
  rwa [← Nat.add_assoc] at this

theorem Frame.CarriesPlaced.dropFront {c : StreamChunks} (h : F.CarriesPlaced n c.placed) (k : ℕ) :
    F.CarriesPlaced n (c.dropFront k).placed := by
  rw [placed_dropFront]
  refine (F.carriesPlaced_gap _ _).append ?_
  rw [length_replicate]
  exact h.drop _

/-- The placement of what a side has put out, collected and ready. -/
structure Placed (F : Frame) (out : StreamChunks) (c : Core) : Prop where
  /-- The bytes were carried where they are placed. -/
  carries : F.CarriesPlaced 0 (out.placed ++ c.ready.placed)
  /-- The output ends at or before the stream position, -/
  length_le : (out.placed ++ c.ready.placed).length ≤ c.track.next_off
  /-- and at it as long as the side runs. -/
  length_eq : c.stop = none → (out.placed ++ c.ready.placed).length = c.track.next_off
  /-- The stream was seen to reach its position. -/
  covered : F.covered c.track.next_off

namespace Placed

variable {out : StreamChunks} {c c' : Core}

section

variable (h : Placed F out c)
include h

/-- The output and the position of another side, where they are longer by the same positions. -/
theorem extend (tail : List (Option UInt8))
    (hrd : out.placed ++ c'.ready.placed = (out.placed ++ c.ready.placed) ++ tail)
    (htl : F.CarriesPlaced (out.placed ++ c.ready.placed).length tail)
    (hnx : c'.track.next_off = c.track.next_off + tail.length)
    (hsp : c'.stop = none → c.stop = none) (hcov : F.covered c'.track.next_off) :
    Placed F out c' := by
  refine ⟨?_, ?_, fun hs => ?_, hcov⟩
  · rw [hrd]
    refine h.carries.append ?_
    rwa [Nat.zero_add]
  · rw [hrd, hnx, length_append]
    exact Nat.add_le_add_right h.length_le _
  · rw [hrd, hnx, length_append, h.length_eq (hsp hs)]

theorem skipTo {off : ℕ} (hoff : F.covered off) (ts : Timestamp) :
    Placed F out (c.skipTo off ts) := by
  by_cases hle : off ≤ c.track.next_off
  · rwa [Core.skipTo_of_le hle]
  · have hlt := not_le.mp hle
    refine h.extend (List.replicate (off - c.track.next_off) none) ?_
      (F.carriesPlaced_gap _ _) ?_ (fun hs => (Core.stop_skipTo _ _ _).symm.trans hs) ?_
    · rw [Core.skipTo_of_lt hlt, placed_pushGap, List.append_assoc]
    · rw [Core.next_off_skipTo, length_replicate]
      omega
    · rw [Core.next_off_skipTo, max_eq_right hlt.le]
      exact hoff

/-- Bytes that were carried at the stream position are placed there. -/
theorem appends {bytes : List UInt8} {ts : Timestamp} (hrun : c.stop = none)
    (hcar : F.CarriesAt c.track.next_off bytes)
    (hcov : F.covered (c.track.next_off + bytes.length))
    (happ : { c with track := c.track.advanceTo (c.track.next_off + bytes.length) ts }.Appends
      bytes c') : Placed F out c' := by
  have hlen := h.length_eq hrun
  have hnx : c'.track.next_off = c.track.next_off + bytes.length := by
    have hnx := Track.next_off_advanceTo c.track (c.track.next_off + bytes.length) ts
    cases happ <;> dsimp only at * <;> omega
  cases happ with
  | push config next_off gap_bytes ready dropped stop =>
    refine h.extend (bytes.map some) ?_ ?_ ?_ (fun _ => hrun) (hnx ▸ hcov)
    · rw [ready, placed_pushData, List.append_assoc]
    · rw [hlen]
      exact hcar.placed
    · rw [hnx, length_map]
  | slide config next_off gap_bytes cap drop extra max_buffer hdr hex _ ready dropped stop =>
    -- first the oldest bytes turn into a gap, which changes no position
    have hsl : Placed F out { c with ready := c.ready.dropFront drop } := by
      have hpd : (c.ready.dropFront drop).placed.length = c.ready.placed.length :=
        c.ready.length_placed_dropFront drop
      refine ⟨?_, ?_, fun hs => ?_, h.covered⟩
      · exact h.carries.left.append (h.carries.right.dropFront drop)
      · have := h.length_le
        rw [length_append] at this ⊢
        rwa [hpd]
      · have := h.length_eq hs
        rw [length_append] at this ⊢
        rwa [hpd]
    have hln' := hsl.length_eq hrun
    refine hsl.extend (List.replicate extra none ++ (bytes.drop extra).map some) ?_ ?_ ?_
      (fun _ => hrun) (hnx ▸ hcov)
    · rw [ready, placed_pushData, placed_pushGap]
      simp only [List.append_assoc]
    · rw [hln']
      refine (F.carriesPlaced_gap _ _).append ?_
      rw [length_replicate]
      exact (hcar.drop extra).placed
    · rw [hnx]
      simp only [length_append, length_replicate, length_map, length_drop]
      omega
  | overflow config next_off gap_bytes cap max_buffer policy ready stop =>
    have hrd : c'.ready = c.ready := ready
    refine ⟨hrd ▸ h.carries, ?_, fun hs => ?_, hnx ▸ hcov⟩
    · rw [hrd, hnx]
      exact h.length_le.trans (Nat.le_add_right _ _)
    · rw [stop] at hs
      cases hs

theorem move (hmv : Move F c c') : Placed F out c' := by
  cases hmv with
  | note same =>
    refine ⟨?_, ?_, fun hs => ?_, ?_⟩
    · rw [same.ready]
      exact h.carries
    · rw [same.ready, same.next_off]
      exact h.length_le
    · rw [same.ready, same.next_off]
      exact h.length_eq (same.stop.symm.trans hs)
    · rw [same.next_off]
      exact h.covered
  | skip off ts hoff => exact h.skipTo hoff ts
  | deliver bytes ts running carries covered happ => exact h.appends running carries covered happ
  | jump off ts stopped hoff =>
    refine ⟨h.carries, ?_, fun hs => absurd hs stopped, ?_⟩
    · rw [Track.next_off_advanceTo]
      exact h.length_le.trans (le_max_left _ _)
    · rw [Track.next_off_advanceTo]
      rcases max_choice c.track.next_off off with hmax | hmax <;> rw [hmax]
      · exact h.covered
      · exact hoff

end

theorem placed_of_isEmpty {d : StreamChunks} (h : d.isEmpty = true) : d.placed = [] := by
  simp only [StreamChunks.isEmpty, Bool.and_eq_true, List.isEmpty_iff] at h
  rw [StreamChunks.placed_eq, h.1.1, h.1.2, StreamChunks.placedFrom_nil, List.map_nil]

/-- Every call keeps the placement: of what is collected and of what is ready. -/
theorem turn {p p' : Core × StreamChunks} (h : Placed F p.2 p.1) (htr : Turn F p p') :
    Placed F p'.2 p'.1 := by
  cases htr with
  | path out hpt => exact hpt.keeps (fun _ _ hmv hc => hc.move hmv) h
  | pass out bytes hpt hps =>
    have h₁ := hpt.keeps (fun _ _ hmv hc => hc.move hmv) h
    have hem := placed_of_isEmpty hps.empty
    have hlen := h₁.length_eq hps.running
    have hwl := h₁.carries
    rw [hem, append_nil] at hlen hwl
    refine ⟨?_, ?_, fun _ => ?_, ?_⟩ <;> dsimp only
    · rw [hps.ready, hem, append_nil, placed_pushData]
      refine hwl.append ?_
      rw [Nat.zero_add, hlen]
      exact hps.carries.placed
    · rw [hps.ready, hem, append_nil, placed_pushData, hps.next_off,
        length_append, length_map, hlen]
    · rw [hps.ready, hem, append_nil, placed_pushData, hps.next_off,
        length_append, length_map, hlen]
    · rw [hps.next_off]
      exact hps.covered
  | drain c out =>
    have hout : (c.drainInto out).2.placed = out.placed ++ c.ready.placed := by
      unfold Core.drainInto
      cases c.stop <;> simp
    have hrd : (c.drainInto out).1.ready.placed = [] := rfl
    refine ⟨?_, ?_, fun hs => ?_, h.covered⟩
    · rw [hout, hrd, append_nil]
      exact h.carries
    · rw [hout, hrd, append_nil]
      exact h.length_le
    · rw [hout, hrd, append_nil]
      exact h.length_eq hs

end Placed

end

/-! ## Offsets in a window -/

/-- Fewer than `2^31` offsets around the anchor, which is at offset zero and numbered `base`. -/
structure Window where
  /-- The number of the anchor. -/
  base : Seq
  /-- The first offset. -/
  lo : ℤ
  /-- The last one. -/
  hi : ℤ
  /-- The anchor is inside. -/
  lo_le : lo ≤ 0
  /-- The anchor is inside. -/
  le_hi : 0 ≤ hi
  /-- Two offsets are less than `2^31` apart. -/
  narrow : hi - lo < 2^31

namespace Window

variable (W : Window)

/-- The offset in the window that a sequence number has. -/
def offset (seq : Seq) : ℤ := Serial.place W.base W.lo seq

/-- The end of what a call names: of its bytes, or of what it proves. -/
def reach : Call → ℤ
  | .segment seq payload _ => W.offset seq + payload.length
  | .segmentInto seq payload _ => W.offset seq + payload.length
  | .missing seq len _ => W.offset seq + len.toNat
  | .peerAck ack _ => W.offset (ack - 1)
  | .finSeen end_ _ => W.offset end_
  | _ => 0

/-- The call carries this byte at this offset. -/
def Carries (off : ℕ) (b : UInt8) : Call → Prop
  | .segment seq payload _ => ∃ i : ℕ, payload[i]? = some b ∧ W.offset seq + i = off
  | .segmentInto seq payload _ => ∃ i : ℕ, payload[i]? = some b ∧ W.offset seq + i = off
  | _ => False

/-- What is known of a run of these calls. -/
def frame (calls : List Call) : Frame where
  carried off b := ∃ call ∈ calls, W.Carries off b call
  covered off := (off : ℤ) ≤ W.hi ∧ (off = 0 ∨ ∃ call ∈ calls, (off : ℤ) ≤ W.reach call)
  window t := t.anchored = true ∧ t.Aligned W.base ∧ (t.next_off : ℤ) ≤ W.hi
  covered_of_le a b hab hb := by
    refine ⟨by omega, ?_⟩
    rcases hb.2 with hb | ⟨call, hcall, hb⟩
    · exact .inl (by omega)
    · exact .inr ⟨call, hcall, by omega⟩
  window_anchor t seq ts h := by rwa [Track.anchor_of_anchored h.1]
  window_advanceTo t off ts hoff h := by
    refine ⟨(Track.anchored_advanceTo _ _ _).trans h.1, h.2.1.advanceTo off ts, ?_⟩
    rw [Track.next_off_advanceTo]
    have := h.2.2
    have := hoff.1
    omega
  window_congr t t' ha hs hn h := by
    refine ⟨ha.trans h.1, ?_, hn ▸ h.2.2⟩
    rw [Track.Aligned, hs, hn]
    exact h.2.1
  allows _ _ := True
  plain _ _ _ := trivial

variable {W} {calls : List Call}

/-- An offset in the window is the one that its number has. -/
theorem offsetOf_number {t : Track} (h : (W.frame calls).window t) {z : ℤ} (hlo : W.lo ≤ z)
    (hhi : z ≤ W.hi) : t.offsetOf (number W.base z) = z := by
  have hnr := W.narrow
  have hnx := h.2.2
  have hle := W.lo_le
  exact h.2.1.offsetOf (by omega) (by omega)

theorem offsetOf_eq {t : Track} (h : (W.frame calls).window t) {seq : Seq}
    (hhi : W.offset seq ≤ W.hi) : t.offsetOf seq = W.offset seq := by
  have hpc := offsetOf_number h (le_place W.base W.lo seq) hhi
  rwa [number_place] at hpc

/-- A candidate that is fed again is placed where it was. -/
theorem refeeds (W : Window) (calls : List Call) : (W.frame calls).Refeeds := by
  intro t c hw _ hc t' hw' _
  have hend : (c.end_ : ℤ) ≤ W.hi := hc.2.1
  have hoff : t'.offsetOf (t.seqOf c.off) = c.off := by
    rw [hw.2.1.seqOf]
    refine offsetOf_number hw' ?_ ?_
    · have := W.lo_le
      omega
    · rw [Candidate.end_] at hend
      omega
  rw [hoff]
  refine ⟨?_, fun i b hb _ => ?_⟩
  · refine (W.frame calls).covered_of_le _ _ ?_ hc.2
    rw [Candidate.end_]
    omega
  · have := hc.1 i b hb
    rwa [show ((c.off : ℤ) + i).toNat = c.off + i by omega]

/-- Nothing but the window bounds what a call covers. -/
theorem covered_reach {call : Call} (hcall : call ∈ calls) (hhi : W.reach call ≤ W.hi) :
    (W.frame calls).covered (W.reach call).toNat := by
  refine ⟨?_, ?_⟩
  · have := W.le_hi
    omega
  · rcases Nat.eq_zero_or_pos (W.reach call).toNat with hz | hpos
    · exact .inl hz
    · exact .inr ⟨call, hcall, by omega⟩

/-- The frame knows what the calls of the run bring. -/
theorem knows {call : Call} (hcall : call ∈ calls) (hhi : W.reach call ≤ W.hi) (t : Track) :
    (W.frame calls).Knows t call := by
  have hcov := covered_reach hcall hhi
  refine ⟨call.grants_true t, ?_⟩
  cases call with
  | segment seq payload ts | segmentInto seq payload ts =>
    intro t hw _
    have hoff : t.offsetOf seq = W.offset seq := offsetOf_eq hw (by
      simp only [reach] at hhi
      omega)
    rw [hoff]
    exact ⟨hcov, fun i b hb hpos => ⟨_, hcall, i, hb, by omega⟩⟩
  | peerAck ack ts =>
    intro t hw _
    rw [offsetOf_eq hw hhi]
    exact hcov
  | finSeen end_ ts =>
    intro t hw _
    rw [offsetOf_eq hw hhi]
    exact hcov
  | missing seq len ts =>
    have hsr : W.offset seq ≤ W.hi := by
      simp only [reach] at hhi
      omega
    refine ⟨fun t hw _ => ?_, fun t hw _ => ?_⟩
    · rw [offsetOf_eq hw hsr]
      exact hcov
    · have hseq : seq + len = number W.base (W.reach (.missing seq len ts)) := by
        have hlen : BitVec.ofNat 32 len.toNat = len := by simp
        show _ = number W.base (W.offset seq + len.toNat)
        rw [number_add_natCast, offset, number_place, hlen]
      have hlo : W.lo ≤ W.reach (.missing seq len ts) := by
        have := le_place W.base W.lo seq
        simp only [reach, offset]
        omega
      rw [hseq, offsetOf_number hw hlo hhi]
      exact hcov
  | setOrigin | drainInto | flushPending | advanceTime | take | release => trivial

end Window

/-! ## Runs -/

/-- A run does nothing before the call that anchors the stream. -/
theorem Call.run_until_anchor {R : Type} [Reassembler R] {init : R × StreamChunks}
    {P : R × StreamChunks → Prop} {E : Fault → Prop} (hP : P init)
    (hid : ∀ call : Call, call.anchorAt = none → call.drops = false →
      (call.exec init).Sat (· = init) E)
    {calls : List Call} (hcs : ∀ call ∈ calls, call.drops = false)
    (han : ∀ call rest, (call :: rest) <:+ calls → ∀ a,
      calls.findSome? anchorAt = some a → call.anchorAt = some a →
        (run (call :: rest) init).Sat P E) : (run calls init).Sat P E := by
  induction calls with
  | nil => exact hP
  | cons call calls ih =>
    cases ha : call.anchorAt with
    | some a => exact han call calls suffix_rfl a (by simp [ha]) ha
    | none =>
      refine Except.Sat.bind ((hid call ha (hcs call (by simp))).imp fun s hs => ?_)
      subst hs
      refine ih (fun c hc => hcs c (by simp [hc])) fun call' rest hsf a hfr => ?_
      exact han call' rest (hsf.trans (suffix_cons _ _)) a (by simpa [ha] using hfr)

namespace Window

variable {W : Window} {calls : List Call}

/-- The position right after anchoring. -/
theorem trackOk_anchor (W : Window) (calls : List Call) (ts : Timestamp) :
    (W.frame calls).TrackOk (Track.new.anchor W.base ts) := by
  refine ⟨⟨rfl, ?_, W.le_hi⟩, ⟨W.le_hi, .inl rfl⟩, fun c hc => by cases hc⟩
  show W.base = number W.base 0
  rw [number_zero]

theorem placed_anchor (W : Window) (calls : List Call) (config : Config) (ts : Timestamp) :
    Placed (W.frame calls) .new { Core.new config with track := Track.new.anchor W.base ts } :=
  ⟨fun i b hb => by simp [Core.new] at hb, Nat.zero_le _, fun _ => rfl, W.le_hi, .inl rfl⟩

/-- What is collected is placed as the calls carried it, and ends where they reach. -/
def WellPlaced (W : Window) (calls : List Call) (out : StreamChunks) : Prop :=
  (∀ i b, out.placed[i]? = some (some b) → ∃ call ∈ calls, W.Carries i b call) ∧
    (out.placed.length = 0 ∨ ∃ call ∈ calls, (out.placed.length : ℤ) ≤ W.reach call)

theorem wellPlaced_of_placed {out : StreamChunks} {c : Core} (h : Placed (W.frame calls) out c) :
    W.WellPlaced calls out := by
  refine ⟨fun i b hb => ?_, ?_⟩
  · have := h.carries.left i b hb
    rwa [Nat.zero_add] at this
  · refine ((W.frame calls).covered_of_le _ _ ?_ h.covered).2
    have := h.length_le
    rw [length_append] at this
    omega

end Window

/-- No byte is misplaced, for both reassemblers. Where all offsets that the calls name lie in a
window of fewer than `2^31` around the anchor, walking what was collected from the anchor finds only
bytes that a segment carried at that offset, and ends at or before the largest offset that a call
covered. -/
theorem no_byte_misplaced (config : Config) (hmax : config.rules.max_ahead < 2^31)
    (max_ooo_buffer : ℕ) (policy : TcpOverlapPolicy) (W : Window) (calls : List Call)
    (hcalls : ∀ call ∈ calls, call.drops = false ∧ W.reach call ≤ W.hi)
    (hanchor : ∀ a, calls.findSome? Call.anchorAt = some a → a.1 = W.base) :
    (Call.run calls (SegmentBufferReassembler.new config max_ooo_buffer policy, .new)).Sat
        (fun s => W.WellPlaced calls s.2) config.rules.Faults ∧
      (Call.run calls (BufferedReassembler.new config, .new)).Sat
        (fun s => W.WellPlaced calls s.2) config.rules.Faults := by
  have hpl : (W.frame calls).Places config.rules := .inl (by omega)
  have hem : W.WellPlaced calls .new := ⟨fun i b hb => by simp at hb, .inl rfl⟩
  have hkn : ∀ {R : Type} [Reassembler R] (call : Call) (rest : List Call),
      (call :: rest) <:+ calls → ∀ s : R × StreamChunks, Along
        (fun call _ => (∀ t, (W.frame calls).Knows t call) ∧ call.drops = false) (call :: rest) s := by
    intro R _ call rest hsf s
    refine Except.Along.of_forall (fun c hc => ?_) s
    have hc := hcalls c (hsf.subset hc)
    exact ⟨Window.knows (hsf.subset ‹_›) hc.2, hc.1⟩
  constructor
  · refine run_until_anchor hem
      (fun call ha hd => exec_new config max_ooo_buffer policy ha hd)
      (fun call hc => (hcalls call hc).1) fun call rest hsf a hfr ha => ?_
    obtain ⟨seq, ts⟩ := a
    obtain rfl : seq = W.base := hanchor _ hfr
    rw [run_cons, exec_anchor rfl ha]
    refine (run_done
      (I := fun s => Placed (W.frame calls) s.2 s.1.toCore)
      (W.refeeds calls) hpl (fun call s s' hd _ hdn hs => hs.turn (hdn.turn hd))
      ((hkn call rest hsf _).imp fun _ _ h => ⟨h.1 _, h.2⟩) (W.placed_anchor calls config ts)
      ⟨.of_none rfl, W.trackOk_anchor calls ts⟩ rfl).imp fun s hs => ?_
    exact Window.wellPlaced_of_placed hs.1
  · refine run_until_anchor hem
      (fun call ha hd => BufferedReassembler.exec_new config ha hd)
      (fun call hc => (hcalls call hc).1) fun call rest hsf a hfr ha => ?_
    obtain ⟨seq, ts⟩ := a
    obtain rfl : seq = W.base := hanchor _ hfr
    rw [run_cons, BufferedReassembler.exec_anchor rfl ha]
    refine (BufferedReassembler.run_done
      (I := fun s => Placed (W.frame calls) s.2 s.1.toCore)
      hpl (fun call s s' hd _ hdn hs => hs.turn (hdn.turn hd))
      ((hkn call rest hsf _).imp fun _ _ h => ⟨h.1 _, h.2⟩) (W.placed_anchor calls config ts)
      ⟨fun c hc => absurd hc.symm (Option.some_ne_none c), fun hne => absurd rfl hne,
        W.trackOk_anchor calls ts⟩ rfl).imp fun s hs => ?_
    exact Window.wellPlaced_of_placed hs.1

/-- A window from sixteen offsets before the anchor on. -/
def Window.around (base : Seq) : Window where
  base := base
  lo := -16
  hi := 2^20
  lo_le := by decide
  le_hi := by decide
  narrow := by decide

/-- A hole, a segment that starts before the anchor, cut bytes, and an ACK. -/
def scattered : List Call :=
  [.segmentInto 100 [1, 2] Timestamp.zero, .segment 104 [5, 6] Timestamp.zero,
    .segment 98 [9, 9, 9, 9, 3] Timestamp.zero, .missing 110 8 Timestamp.zero,
    .peerAck 121 Timestamp.zero, .flushPending, .drainInto]

theorem no_byte_misplaced_scattered :
    (Call.run scattered (SegmentBufferReassembler.new Config.new 1000 .first, .new)).Sat
        (fun s => (Window.around 100).WellPlaced scattered s.2) Config.new.rules.Faults ∧
      (Call.run scattered (BufferedReassembler.new Config.new, .new)).Sat
        (fun s => (Window.around 100).WellPlaced scattered s.2) Config.new.rules.Faults :=
  no_byte_misplaced Config.new (by decide) 1000 .first (Window.around 100) scattered (by decide)
    (by decide)

/-- The stream at `2^31 - 1`, and then a segment two offsets before the anchor: all offsets are
within `2^31` of the anchor, but the last two are more than `2^31` apart. -/
def ambiguous : List Call :=
  [.setOrigin (Serial.number 0 0), .missing (Serial.number 0 0) (2^31 - 1) Timestamp.zero,
    .segment (Serial.number 0 (-2)) [7] Timestamp.zero, .flushPending, .drainInto]

/-- The byte after a gap. -/
theorem getElem?_gap_data (n : ℕ) (b : UInt8) :
    ([Chunk.gap n, Chunk.data [b]].flatMap Chunk.placed)[n]? = some (some b) := by
  simp [Chunk.placed]

/-- The byte carried at offset `-2` is delivered at offset `2^32 - 2`. -/
theorem byte_misplaced_outside_window :
    ∃ s out, Call.run ambiguous (SegmentBufferReassembler.new
        { Config.new with rules.max_ahead := 2^31 - 1 } 1000 .first, .new) = .ok (s, out) ∧
      out.iter = [.gap (2^32 - 2), .data [7]] ∧ out.placed[2^32 - 2]? = some (some 7) := by
  have hrun : (run ambiguous (new
      { Config.new with rules.max_ahead := 2^31 - 1 } 1000 .first, .new)).map
        (fun s => s.2.iter) = .ok [.gap (2^32 - 2), .data [7]] := by
    decide +kernel
  obtain ⟨s, hs, hir⟩ := Except.map_eq_ok hrun
  refine ⟨s.1, s.2, hs, hir, ?_⟩
  rw [placed, hir]
  exact getElem?_gap_data _ 7

end Flowscope
