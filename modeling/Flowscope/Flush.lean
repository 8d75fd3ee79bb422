import Flowscope.Buffered.Calls
import Flowscope.Segment.Calls
import Flowscope.Segment.Emission

/-!
# The end of the flow

`flush_pending` and then `drain_into`, from any reachable state: nothing is held any more, the
stream has reached everything that was held or proven, and each byte that was held at or past the
stream position was delivered at its offset (`flush_complete`). What the sliding window takes from
the front is a gap in the output and counted in `bytes_dropped_oversize`; an overflow under
`OverflowPolicy::DropFlow` stops the side in the middle. A second flush and drain adds nothing.
-/

namespace Flowscope

open SegmentBufferReassembler Flowscope.Core BufferedReassembler Except Call Track

/-- How a reassembler is looked at from outside. -/
structure View (R : Type) where
  /-- The shared part. -/
  core : R → Core
  /-- The byte held at an offset. -/
  held : R → ℕ → Option UInt8
  /-- No segment waits for a hole. -/
  idle : R → Prop

/-- What flushing and draining leads to. -/
structure Flushed {R : Type} [Reassembler R] (V : View R) (s t : R × StreamChunks) : Prop where
  current_bytes : Reassembler.currentBytes t.1 = 0
  idle : V.idle t.1
  stray : (V.core t.1).track.oow = none
  /-- The stream has reached what was proven. -/
  tail : (V.core t.1).stop = none → (V.core t.1).track.evidence ≤ (V.core t.1).track.next_off
  stop : (V.core t.1).stop = (V.core s.1).stop ∨
    (V.core t.1).stop = some .overflow ∧ (V.core s.1).overflow_policy = .dropFlow
  /-- The stream has passed everything that was held, unless it was stopped. -/
  passed : (V.core t.1).stop = (V.core s.1).stop →
    ∀ off, V.held s.1 off ≠ none → off < (V.core t.1).track.next_off
  /-- What was ready and what was held is in the output, but for a front that the cap made a gap. -/
  delivered : (V.core t.1).stop = (V.core s.1).stop → ∃ shown lost,
    t.2.placed = s.2.placed ++ shown ∧
      List.Blanked ((V.core s.1).ready.placed ++ heldFrom (V.held s.1)
        (V.core s.1).track.next_off (V.core t.1).track.next_off) shown lost ∧
      (V.core t.1).bytes_dropped_oversize = (V.core s.1).bytes_dropped_oversize + lost ∧
      ((V.core s.1).max_buffer = none → shown = (V.core s.1).ready.placed ++
        heldFrom (V.held s.1) (V.core s.1).track.next_off (V.core t.1).track.next_off)
  again : (Call.run [.flushPending, .drainInto] t).Sat (fun t' => t'.2 = t.2) fun _ => False

/-! ## Draining -/

namespace StreamChunks

theorem append_new (c : StreamChunks) : (c.append new).1 = c := by
  obtain ⟨bytes, gaps, stop, marked⟩ := c
  unfold append
  by_cases h : bytes = [] ∧ gaps = []
  · obtain ⟨rfl, rfl⟩ := h
    rfl
  · simp [new]

theorem setStop_of_some {c : StreamChunks} (h : c.stop ≠ none) (stop : ReassemblyStop) :
    c.setStop stop = c := by
  obtain ⟨bytes, gaps, _ | s, marked⟩ := c
  · exact absurd rfl h
  · rfl

end StreamChunks

namespace Core

theorem placed_drainInto (c : Core) (out : StreamChunks) :
    (c.drainInto out).2.placed = out.placed ++ c.ready.placed := by
  cases hsp : c.stop with
  | none => simp [drainInto, hsp]
  | some stop => simp [drainInto, hsp]

/-- The consumer knows of a stop. -/
theorem stop_drainInto (c : Core) (out : StreamChunks) (h : c.stop ≠ none) :
    (c.drainInto out).2.stop ≠ none := by
  obtain ⟨stop, hsp⟩ := Option.ne_none_iff_exists'.mp h
  simp [drainInto, hsp, StreamChunks.setStop]

theorem drainInto_of_empty {c : Core} {out : StreamChunks} (hrd : c.ready = .new)
    (hsp : c.stop ≠ none → out.stop ≠ none) : (c.drainInto out).2 = out := by
  cases hs : c.stop with
  | none => simp [drainInto, hs, hrd, StreamChunks.append_new]
  | some stop =>
    have hout := hsp (by simp [hs])
    simp [drainInto, hs, hrd, StreamChunks.append_new, StreamChunks.setStop_of_some hout]

end Core

inductive Core.Flushes (c c' : Core) (held : ℕ → Option UInt8) : Prop where
  /-- The stream passes over everything that is held. -/
  | emits (held' : ℕ → Option UInt8) (h : c.Emits c' held held') (hnone : ∀ off, held' off = none)
  /-- The side stops at its cap. -/
  | halts (stop : c'.stop = some .overflow) (running : c.stop = none)
      (policy : c.overflow_policy = .dropFlow)
  /-- The side had stopped, and held nothing. -/
  | stopped (h : c.stop ≠ none) (same : c.Same c') (hnone : ∀ off, held off = none)

theorem Core.Flushes.flushed {R : Type} [Reassembler R] {V : View R} {s t : R × StreamChunks}
    {c : Core} (h : (V.core s.1).Flushes c (V.held s.1))
    (hcr : (V.core t.1, t.2) = c.drainInto s.2)
    (hby : Reassembler.currentBytes t.1 = 0) (hid : V.idle t.1) (hoow : c.track.oow = none)
    (htl : c.stop = none → c.track.evidence ≤ c.track.next_off)
    (hag : (run [.flushPending, .drainInto] t).Sat (fun t' => t'.2 = t.2) fun _ => False) :
    Flushed V s t := by
  have hc : V.core t.1 = (c.drainInto s.2).1 := congrArg Prod.fst hcr
  have hout : t.2 = (c.drainInto s.2).2 := congrArg Prod.snd hcr
  have hpd : t.2.placed = s.2.placed ++ c.ready.placed := by
    rw [hout, placed_drainInto]
  have htr : (V.core t.1).track = c.track := by rw [hc, drainInto]
  have hsp : (V.core t.1).stop = c.stop := by rw [hc, drainInto]
  have hdd : (V.core t.1).bytes_dropped_oversize = c.bytes_dropped_oversize := by
    rw [hc, drainInto]
  rw [← htr] at hoow
  rw [← htr, ← hsp] at htl
  cases h with
  | emits held' h hnone =>
    have hnx : ∀ off, V.held s.1 off ≠ none → off < c.track.next_off := by
      intro off hoff
      by_contra hle
      exact hoff ((h.rest off (not_lt.mp hle)).symm.trans (hnone off))
    refine ⟨hby, hid, hoow, htl, .inl ?_, fun _ => ?_, fun _ => ?_, hag⟩
    · rw [hsp, h.running, h.running']
    · rwa [htr]
    · obtain ⟨lost, hbl, hlo⟩ := h.ready
      rw [htr, hdd]
      exact ⟨c.ready.placed, lost, hpd, hbl, hlo, h.uncapped⟩
  | halts stop running policy =>
    refine ⟨hby, hid, hoow, htl, .inr ⟨hsp.trans stop, policy⟩, fun heq => ?_, fun heq => ?_, hag⟩
    · rw [hsp, stop, running] at heq
      cases heq
    · rw [hsp, stop, running] at heq
      cases heq
  | stopped h same hnone =>
    refine ⟨hby, hid, hoow, htl, .inl (hsp.trans same.stop), fun _ off hoff =>
      absurd (hnone off) hoff, fun _ => ?_, hag⟩
    rw [htr, hdd, same.next_off, same.dropped, heldFrom_self, List.append_nil]
    rw [same.ready] at hpd
    exact ⟨_, 0, hpd, .refl _, rfl, fun _ => rfl⟩

/-! ## The segment-buffer reassembler -/

namespace SegmentBufferReassembler

variable {F : Frame} {E : Fault → Prop} {s : SegmentBufferReassembler}

/-- The store is what is held. -/
def view : View SegmentBufferReassembler where
  core := toCore
  held := heldAt
  idle s := s.ooo = none

/-- Skip to the end of what was proven, unless the side stopped. -/
def skipTail (s : SegmentBufferReassembler) (ts : Timestamp) : SegmentBufferReassembler :=
  match s.track.evidenceFrontier with
  | some frontier =>
    if s.stop.isNone then
      { s with ack_confirmed_gaps := s.ack_confirmed_gaps + 1 }.skipTo frontier ts
    else s
  | none => s

theorem flushPending_eq (s : SegmentBufferReassembler) :
    s.flushPending = s.flushOoo s.track.last_progress >>= fun t =>
      .ok { t.skipTail s.track.last_progress with
        track := (t.skipTail s.track.last_progress).track.dropStray } := rfl

theorem skipTail_of_stop (h : s.stop ≠ none) (ts : Timestamp) : s.skipTail ts = s := by
  unfold skipTail
  cases s.track.evidenceFrontier with
  | none => rfl
  | some frontier => exact if_neg (by simpa using h)

/-- Where nothing is held, the tail is a gap. -/
theorem skipTail_emits (hrun : s.stop = none) (hooo : s.ooo = none) (ts : Timestamp) :
    s.Emits (s.skipTail ts) ∧ (s.skipTail ts).ooo = none ∧
      (s.skipTail ts).track.evidence ≤ (s.skipTail ts).track.next_off := by
  unfold skipTail
  cases hf : s.track.evidenceFrontier with
  | none => exact ⟨.refl hrun _, hooo, evidenceFrontier_eq_none.mp hf⟩
  | some frontier =>
    obtain ⟨hfn, -⟩ := evidenceFrontier_eq_some hf
    dsimp only
    rw [if_pos (by simp [hrun])]
    refine ⟨?_, hooo, ?_⟩
    · have hnt : s.toCore.Emits
          { s.toCore with ack_confirmed_gaps := s.ack_confirmed_gaps + 1 } s.heldAt s.heldAt :=
        (Core.Emits.refl hrun _).congr ⟨rfl, rfl, rfl, rfl, rfl, rfl⟩
      exact hnt.trans (.skipTo hnt.running' frontier (fun i _ _ => heldAt_of_none hooo i) ts)
    · show (Core.skipTo _ frontier ts).track.evidence ≤ (Core.skipTo _ frontier ts).track.next_off
      rw [Core.evidence_skipTo, Core.next_off_skipTo, hfn]
      exact le_max_right _ _

/-- What a flush does: nothing is held, and the stream has passed everything. -/
theorem flushPending_flushes (h : s.Fine F) :
    s.flushPending.Sat (fun t => s.toCore.Flushes t.toCore s.heldAt ∧ t.ooo = none ∧
      t.track.oow = none ∧ (t.stop = none → t.track.evidence ≤ t.track.next_off)) E := by
  have hdr : ∀ t : SegmentBufferReassembler,
      t.toCore.Same { t.toCore with track := t.track.dropStray } := fun _ =>
    ⟨rfl, rfl, rfl, rfl, rfl, rfl⟩
  rw [flushPending_eq]
  by_cases hrun : s.stop = none
  · refine Sat.bind ((flushOoo_emits h hrun s.track.last_progress).imp
      fun s1 ⟨h₁, hcs⟩ => ?_)
    rcases hcs with ⟨hnone, hem⟩ | hhs
    · -- the holes are skipped, and then the proven tail
      obtain ⟨hem', hnn', htl⟩ := skipTail_emits hem.running' hnone s.track.last_progress
      exact ⟨.emits _ ((hem.trans hem').congr (hdr _)) (heldAt_of_none hnn'), hnn', rfl,
        fun _ => htl⟩
    · -- the side stopped on the way
      have hsp : s1.stop ≠ none := fun hc => by cases hc.symm.trans hhs.stop
      rw [skipTail_of_stop hsp]
      exact ⟨.halts hhs.stop hrun hhs.policy, h₁.held.stopped hsp, rfl, fun hc => absurd hc hsp⟩
  · have hooo := h.held.stopped hrun
    rw [flushOoo_of_none hooo, ok_bind, skipTail_of_stop hrun]
    exact ⟨.stopped hrun (hdr s) (heldAt_of_none hooo), hooo, rfl, fun hc => absurd hc hrun⟩

/-- Nothing is left to flush. -/
theorem flushPending_of_settled (hooo : s.ooo = none) (hoow : s.track.oow = none)
    (htl : s.stop = none → s.track.evidence ≤ s.track.next_off) : s.flushPending = .ok s := by
  have hsk : s.skipTail s.track.last_progress = s := by
    by_cases hrun : s.stop = none
    · rw [skipTail, evidenceFrontier_eq_none.mpr (htl hrun)]
    · exact skipTail_of_stop hrun _
  have hdr : s.track.dropStray = s.track := by rw [dropStray, ← hoow]
  rw [flushPending_eq, flushOoo_of_none hooo, ok_bind, hsk, hdr]

/-- From a state in the invariant, a flush and a drain. -/
theorem flushed (h : s.Fine F) (out : StreamChunks) :
    (run [.flushPending, .drainInto] (s, out)).Sat (Flushed view (s, out)) E := by
  refine Sat.bind (Sat.bind ((flushPending_flushes h).imp
    fun t ⟨hfl, hooo, hoow, htl⟩ => ?_))
  refine Flushes.flushed hfl rfl ?_ hooo
    hoow htl ?_
  · have hch : (t.drainInto out).1.charged = 0 := charged_of_none hooo
    have hhp : (t.drainInto out).1.track.heapBytes = 0 := heapBytes_of_none hoow
    show (t.drainInto out).1.currentBytes = 0
    rw [currentBytes, hch, hhp]
    rfl
  · refine Sat.bind (Sat.bind ?_)
    show (flushPending (t.drainInto out).1).Sat _ _
    rw [flushPending_of_settled (s := (t.drainInto out).1) hooo hoow htl]
    exact drainInto_of_empty rfl (t.toCore.stop_drainInto out)

end SegmentBufferReassembler

/-! ## The buffered reassembler -/

namespace BufferedReassembler

variable {F : Frame} {s : BufferedReassembler}

/-- The byte of the waiting segment at an offset. -/
def heldAt (s : BufferedReassembler) (off : ℕ) : Option UInt8 :=
  s.reorder.bind fun c => if c.off ≤ off then c.data[off - c.off]? else none

/-- The waiting segment is what is held. -/
def view : View BufferedReassembler where
  core := toCore
  held := heldAt
  idle s := s.reorder = none

theorem heldAt_of_none (h : s.reorder = none) (off : ℕ) : s.heldAt off = none := by
  rw [heldAt, h, Option.bind_none]

theorem heldAt_of_some {c : Candidate} (h : s.reorder = some c) (off : ℕ) :
    s.heldAt off = if c.off ≤ off then c.data[off - c.off]? else none := by
  rw [heldAt, h, Option.bind_some]

/-- Giving up on the hole: the waiting segment is delivered, or the side stops. -/
theorem releaseReorder_emits (hrun : s.stop = none) (ts : Timestamp) :
    s.toCore.Emits (s.releaseReorder ts).toCore s.heldAt (fun _ => none) ∨
      (s.releaseReorder ts).stop = some .overflow ∧ s.overflow_policy = .dropFlow := by
  cases hr : s.reorder with
  | none =>
    have heq : s.releaseReorder ts = s := by rw [releaseReorder, hr]
    rw [heq]
    exact .inl (.stay hrun fun off _ => (heldAt_of_none hr off).symm)
  | some c =>
    have heq : s.releaseReorder ts =
        ({ s with reorder := none }.skipTo c.off ts).deliverAt c.off c.data ts := by
      rw [releaseReorder, hr]
    have hsk : s.toCore.Emits (s.toCore.skipTo c.off ts) s.heldAt s.heldAt :=
      .skipTo hrun c.off (fun i _ hi => by rw [heldAt_of_some hr, if_neg (not_le.mpr hi)]) ts
    obtain ⟨s1, hs1⟩ : ∃ s1 : BufferedReassembler,
      s1 = { s with reorder := none }.skipTo c.off ts := ⟨_, rfl⟩
    have hcr : s1.toCore = s.toCore.skipTo c.off ts := by rw [hs1, skipTo]
    rw [← hcr] at hsk
    rw [heq, ← hs1, deliverAt]
    by_cases hend : c.off + c.data.length ≤ s1.track.next_off
    · -- the stream is past the segment
      rw [if_pos hend]
      refine .inl (hsk.trans (.stay hsk.running' fun off hoff => ?_))
      rw [heldAt_of_some hr]
      split_ifs
      · exact (List.getElem?_eq_none (by omega)).symm
      · rfl
    · rw [if_neg hend]
      have hle : c.off ≤ s1.track.next_off := by rw [hs1]; exact next_off_le_skipTo _ _ _
      obtain ⟨bytes, hby⟩ : ∃ bytes, bytes = c.data.drop (s1.track.next_off - c.off) := ⟨_, rfl⟩
      have hlen : s1.track.next_off + bytes.length = c.off + c.data.length := by
        rw [hby, List.length_drop]
        omega
      have hne : bytes ≠ [] := List.ne_nil_of_length_pos (by omega)
      rw [← hby, ← hlen]
      obtain ⟨happ, hcs⟩ := appendWithCap_spec (s := { s1 with
        track := s1.track.advanceTo (s1.track.next_off + bytes.length) ts }) hsk.running' hne
      revert happ hcs
      generalize ({ s1 with track := s1.track.advanceTo (s1.track.next_off + bytes.length) ts } :
        BufferedReassembler).appendWithCap bytes = s2
      intro happ hcs
      by_cases hrn2 : s2.stop = none
      · refine .inl (hsk.trans (.appends hsk.running' (fun i hi => ?_) (fun off hoff => ?_)
          happ.appends hrn2))
        · rw [heldAt_of_some hr, if_pos (by omega), hby, List.getElem?_drop]
          congr 1
          omega
        · rw [heldAt_of_some hr]
          split_ifs
          · exact (List.getElem?_eq_none (by omega)).symm
          · rfl
      · -- only an overflow stops the side
        obtain ⟨hov, hpy, -⟩ := happ.appends.overflows hsk.running' hrn2
        exact .inr ⟨hov, hsk.config ▸ hpy⟩

/-- Skip to the end of what was proven. -/
def skipTail (s : BufferedReassembler) (ts : Timestamp) : BufferedReassembler :=
  match s.track.evidenceFrontier with
  | some frontier => { s with ack_confirmed_gaps := s.ack_confirmed_gaps + 1 }.skipTo frontier ts
  | none => s

theorem flushPending_eq (h : s.stop = none) :
    s.flushPending =
      { (s.releaseReorder s.track.last_progress).skipTail s.track.last_progress with
        track := ((s.releaseReorder s.track.last_progress).skipTail
          s.track.last_progress).track.dropStray } := by
  rw [flushPending, if_neg (by simp [h])]
  rfl

/-- Where nothing is held, the tail is a gap. -/
theorem skipTail_spec (s : BufferedReassembler) (ts : Timestamp) :
    (s.stop = none → s.toCore.Emits (s.skipTail ts).toCore (fun _ => none) (fun _ => none)) ∧
      (s.skipTail ts).reorder = s.reorder ∧ (s.skipTail ts).stop = s.stop ∧
      (s.skipTail ts).track.evidence ≤ (s.skipTail ts).track.next_off := by
  unfold skipTail
  cases hf : s.track.evidenceFrontier with
  | none => exact ⟨fun hrun => .refl hrun _, rfl, rfl, evidenceFrontier_eq_none.mp hf⟩
  | some frontier =>
    obtain ⟨hfn, -⟩ := evidenceFrontier_eq_some hf
    refine ⟨fun hrun => ?_, rfl, Core.stop_skipTo _ _ _, ?_⟩
    · have hnt : s.toCore.Emits { s.toCore with ack_confirmed_gaps := s.ack_confirmed_gaps + 1 }
          (fun _ => none) (fun _ => none) :=
        (Core.Emits.refl hrun _).congr ⟨rfl, rfl, rfl, rfl, rfl, rfl⟩
      exact hnt.trans (.skipTo hnt.running' frontier (fun _ _ _ => rfl) ts)
    · show (Core.skipTo _ frontier ts).track.evidence ≤ (Core.skipTo _ frontier ts).track.next_off
      rw [Core.evidence_skipTo, Core.next_off_skipTo, hfn]
      exact le_max_right _ _

/-- What a flush does: nothing is held, and the stream has passed everything. -/
theorem flushPending_flushes (h : s.Fine F) :
    s.toCore.Flushes s.flushPending.toCore s.heldAt ∧ s.flushPending.reorder = none ∧
      s.flushPending.track.oow = none ∧
      (s.flushPending.stop = none → s.flushPending.track.evidence ≤ s.flushPending.track.next_off) := by
  by_cases hrun : s.stop = none
  · rw [flushPending_eq hrun]
    obtain ⟨-, hnone⟩ := releaseReorder_steps h s.track.last_progress
    obtain ⟨hem', hrr, hsp, htl⟩ :=
      (s.releaseReorder s.track.last_progress).skipTail_spec s.track.last_progress
    refine ⟨?_, hrr.trans hnone, rfl, fun _ => htl⟩
    rcases releaseReorder_emits hrun s.track.last_progress with hem | ⟨hht, hpy⟩
    · exact .emits _ ((hem.trans (hem' hem.running')).congr ⟨rfl, rfl, rfl, rfl, rfl, rfl⟩)
        fun _ => rfl
    · exact .halts (hsp.trans hht) hrun hpy
  · have heq : s.flushPending = s := by
      rw [flushPending, if_pos (by simpa [Option.isSome_iff_ne_none] using hrun)]
    rw [heq]
    obtain ⟨hrr, hoow⟩ := h.stopped hrun
    exact ⟨.stopped hrun ⟨rfl, rfl, rfl, rfl, rfl, rfl⟩ (heldAt_of_none hrr), hrr, hoow,
      fun hc => absurd hc hrun⟩

/-- Nothing is left to flush. -/
theorem flushPending_of_settled (hrr : s.reorder = none) (hoow : s.track.oow = none)
    (htl : s.stop = none → s.track.evidence ≤ s.track.next_off) : s.flushPending = s := by
  by_cases hrun : s.stop = none
  · have hrs : s.releaseReorder s.track.last_progress = s := by rw [releaseReorder, hrr]
    have hsk : s.skipTail s.track.last_progress = s := by
      rw [skipTail, evidenceFrontier_eq_none.mpr (htl hrun)]
    have hdr : s.track.dropStray = s.track := by rw [dropStray, ← hoow]
    rw [flushPending_eq hrun, hrs, hsk, hdr]
  · rw [flushPending, if_pos (by simpa [Option.isSome_iff_ne_none] using hrun)]

/-- From a state in the invariant, a flush and a drain. -/
theorem flushed {E : Fault → Prop} (h : s.Fine F) (out : StreamChunks) :
    (run [.flushPending, .drainInto] (s, out)).Sat (Flushed view (s, out)) E := by
  obtain ⟨hfl, hrr, hoow, htl⟩ := flushPending_flushes h
  revert hfl hrr hoow htl
  show s.toCore.Flushes s.flushPending.toCore s.heldAt → _ → _ → _ →
    Flushed view (s, out) (s.flushPending.drainInto out)
  generalize s.flushPending = t
  intro hfl hrr hoow htl
  refine Flushes.flushed hfl rfl ?_
    hrr hoow htl ?_
  · have hre : (t.drainInto out).1.reorder = none := hrr
    have hhp : (t.drainInto out).1.track.heapBytes = 0 := heapBytes_of_none hoow
    show (t.drainInto out).1.currentBytes = 0
    rw [currentBytes, hre, hhp]
    rfl
  · show ((t.drainInto out).1.flushPending.drainInto (t.drainInto out).2).2 = _
    rw [flushPending_of_settled (s := (t.drainInto out).1) hrr hoow htl]
    exact drainInto_of_empty rfl (t.toCore.stop_drainInto out)

end BufferedReassembler

end Flowscope
