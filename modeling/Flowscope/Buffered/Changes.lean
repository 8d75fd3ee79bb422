import Flowscope.Buffered.Calls

/-!
# What the calls of the buffered reassembler change

Every call is a sequence of changes (`Core.Changes`), and a stopped side counts nothing. So what is
counted stays noted (`Core.Noted`).
-/

namespace Flowscope

namespace BufferedReassembler

variable {A : Track.Op → Track → Prop} {s : BufferedReassembler}

theorem exec_changes (hA : Track.Plain A) {s : BufferedReassembler × StreamChunks}
    (h : s.1.Fine .any) {call : Call} (hgr : call.Grants A s.1.track) (hcl : call ≠ .release) :
    (call.exec s).Sat (fun s' => s.1.toCore.Changes A s'.1.toCore ∧ s'.1.Fine .any)
      fun _ => True := by
  have hfn : s.1.Fine (.allowing A hA) := ⟨h.reorder, h.stopped, Frame.trackOk_any _⟩
  refine (exec_sat (.inr trivial) (Frame.places_any _) hfn (Frame.knows_allowing hgr)).imp
    fun s' h' => ⟨h'.changes hcl, h'.fine.reorder, h'.fine.stopped, Frame.trackOk_any _⟩

theorem fine_released : s.release.Fine .any :=
  ⟨fun c hc => absurd hc.symm (Option.some_ne_none c), fun _ => ⟨rfl, rfl⟩, Frame.trackOk_any _⟩

/-- A stopped side counts nothing any more. -/
theorem exec_rests {s : BufferedReassembler × StreamChunks} {call : Call}
    (hsp : s.1.stop.isSome = true) :
    (call.exec s).Sat (fun s' => s.1.toCore.Rests s'.1.toCore) fun _ => True := by
  obtain ⟨s, out⟩ := s
  have hfd : ∀ seq payload ts pass,
      s.feed nesting seq payload ts pass = .ok (s, .buffered) := by
    intro seq payload ts pass
    rw [nesting, feed, if_pos (by rw [hsp, Bool.or_true])]
    rfl
  cases call with
  | segment seq payload ts =>
    simp only [Call.exec, Reassembler.segment, segment, hfd]
    exact .refl _
  | segmentInto seq payload ts =>
    simp only [Call.exec, Reassembler.segmentInto, segmentInto, hfd]
    exact .refl _
  | setOrigin seq =>
    refine ⟨Track.next_off_anchor _ _ _, ?_, rfl, rfl, rfl, rfl, rfl⟩
    change (s.track.anchor seq .zero).origin_resets = _
    unfold Track.anchor
    split_ifs <;> rfl
  | peerAck ack ts =>
    simp only [Call.exec, Reassembler.peerAck, peerAck, if_pos hsp]
    exact .refl _
  | finSeen end_ ts =>
    simp only [Call.exec, Reassembler.finSeen, finSeen, if_pos hsp]
    exact .refl _
  | missing seq len ts =>
    have hms : s.missing seq len ts = .ok s := by
      rw [missing, nesting, missingFrom, if_pos (by rw [hsp]; rfl)]
      rfl
    simp only [Call.exec, Reassembler.missing, hms]
    exact .refl _
  | drainInto => exact ⟨rfl, rfl, rfl, rfl, rfl, rfl, rfl⟩
  | flushPending =>
    simp only [Call.exec, Reassembler.flushPending, flushPending, if_pos hsp]
    exact .refl _
  | advanceTime now =>
    have htm : Reassembler.advanceTime s now = .ok s := by
      change s.checkTimers now = .ok s
      rw [checkTimers, if_pos hsp]
      rfl
    simp only [Call.exec, htm]
    exact .refl _
  | take => exact ⟨rfl, rfl, rfl, rfl, rfl, rfl, rfl⟩
  | release => exact ⟨rfl, rfl, rfl, rfl, rfl, rfl, rfl⟩

/-- What is counted stays noted. -/
theorem exec_noted {s : BufferedReassembler × StreamChunks} (h : s.1.Fine .any)
    (hnt : s.1.toCore.Noted) (call : Call) :
    (call.exec s).Sat (fun s' => s'.1.Fine .any ∧ s'.1.toCore.Noted) fun _ => True := by
  have hA : Track.Plain fun _ _ => True := fun _ _ _ => trivial
  by_cases hrs : call = .release
  · subst hrs
    exact ⟨fine_released, hnt.rests ⟨rfl, rfl, rfl, rfl, rfl, rfl, rfl⟩ (.of_none rfl)⟩
  have hex := exec_changes hA h (call.grants_true _) hrs
  cases hsp : s.1.stop with
  | none => exact hex.imp fun s' h' => ⟨h'.2, hnt.changes hsp h'.1⟩
  | some stop =>
    refine (hex.and (exec_rests (by rw [hsp]; rfl))).imp fun s' h' => ?_
    exact ⟨h'.1.2, hnt.rests h'.2 (h'.1.1.strayOk hnt.stray)⟩

end BufferedReassembler

end Flowscope
