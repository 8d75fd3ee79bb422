import Flowscope.Buffered.Model
import Flowscope.Reassembly.Moves

/-!
# The buffered reassembler is a path of moves

Every call of `BufferedReassembler` moves the stream only by skipping to covered offsets and by
delivering bytes where they were carried. `Steps` collects this for one step, and what became of the
waiting segment and of the candidate; the theorems about calls are put together from the steps of
the functions that they call, in an arbitrary `Frame`.

Using the candidate and releasing the waiting segment leave neither, so that three nested calls of
`feed` are enough.
-/

namespace Flowscope

open Track Nat

namespace BufferedReassembler

variable {F : Frame} {E : Fault → Prop} {s s' s'' : BufferedReassembler} {ts : Timestamp}

structure Fine (F : Frame) (s : BufferedReassembler) : Prop where
  /-- The bytes of the waiting segment were carried where it is, past the start of the stream. -/
  reorder : ∀ c, s.reorder = some c → F.CandidateOk c ∧ 0 < c.off
  stopped : s.stop ≠ none → s.reorder = none ∧ s.track.oow = none
  track : F.TrackOk s.track

/-- A step that holds nothing new. -/
structure Steps (F : Frame) (s s' : BufferedReassembler) : Prop where
  path : Path F s.toCore s'.toCore
  changes : s.toCore.Changes F.allows s'.toCore
  config : s'.toConfig = s.toConfig
  anchored : s.track.anchored = true → s'.track.anchored = true
  fine : s'.Fine F
  oow : s'.track.oow = s.track.oow ∨ s'.track.oow = none
  reorder : s'.reorder = s.reorder ∨ s'.reorder = none

theorem Steps.refl (h : s.Fine F) : Steps F s s :=
  ⟨.refl _, .refl _, rfl, id, h, .inl rfl, .inl rfl⟩

theorem Steps.trans (h : Steps F s s') (h' : Steps F s' s'') : Steps F s s'' := by
  refine ⟨h.path.trans h'.path, h.changes.trans h'.changes, h'.config.trans h.config,
    fun ha => h'.anchored (h.anchored ha), h'.fine, ?_, ?_⟩
  · rcases h'.oow with heq | hn
    · exact h.oow.imp heq.trans heq.trans
    · exact .inr hn
  · rcases h'.reorder with heq | hn
    · exact h.reorder.imp heq.trans heq.trans
    · exact .inr hn

/-- What the waiting segment occupies. -/
def reorderBytes (s : BufferedReassembler) : ℕ := s.reorder.elim 0 Candidate.heapBytes

section

variable (s : BufferedReassembler)

theorem currentBytes_eq : s.currentBytes = s.ready.len + s.reorderBytes + s.track.heapBytes := by
  rw [currentBytes, reorderBytes]
  cases s.reorder <;> rfl

theorem currentBytes_skipTo (off : ℕ) (ts : Timestamp) :
    (s.skipTo off ts).currentBytes = s.currentBytes := by
  have hrd : (s.skipTo off ts).ready.len = s.ready.len := by
    simp only [skipTo, Core.skipTo]
    split_ifs
    · rfl
    · exact StreamChunks.len_pushGap _ _
  have hhp : (s.skipTo off ts).track.heapBytes = s.track.heapBytes := by
    rw [heapBytes, heapBytes, skipTo, Core.oow_skipTo]
  have hrr : (s.skipTo off ts).reorderBytes = s.reorderBytes := rfl
  rw [currentBytes_eq, currentBytes_eq, hrd, hhp, hrr]

end

/-- A step after which no more bytes are held: they are kept, given up, or moved to the output, where
they are charged less. -/
structure Walks (F : Frame) (s s' : BufferedReassembler) : Prop extends Steps F s s' where
  bytes : s'.currentBytes ≤ s.currentBytes

theorem Walks.refl (h : s.Fine F) : Walks F s s := ⟨.refl h, le_rfl⟩

theorem Walks.trans (h : Walks F s s') (h' : Walks F s' s'') : Walks F s s'' :=
  ⟨h.toSteps.trans h'.toSteps, h'.bytes.trans h.bytes⟩

/-- A change of counters and times of the shared part. -/
theorem core_steps (h : s.Fine F) {c : Core} (hsm : s.toCore.Same c)
    (hch : s.toCore.Changes F.allows c) (ht : F.TrackOk c.track)
    (ha : s.track.anchored = true → c.track.anchored = true)
    (hoow : c.track.oow = s.track.oow ∨ c.track.oow = none) :
    Walks F s { s with toCore := c } := by
  refine ⟨⟨Path.note hsm, hch, hsm.config, ha, ⟨h.reorder, fun hsp => ?_, ht⟩, hoow, .inl rfl⟩, ?_⟩
  · have hsp : s.stop ≠ none := fun hn => hsp (hsm.stop.trans hn)
    exact ⟨(h.stopped hsp).1, hoow.elim (fun heq => heq.trans (h.stopped hsp).2) id⟩
  · have hhp : c.track.heapBytes ≤ s.track.heapBytes := by
      rcases hoow with heq | heq
      · rw [heapBytes, heapBytes, heq]
      · exact (heapBytes_of_none heq).trans_le (zero_le _)
    rw [currentBytes_eq, currentBytes_eq, hsm.ready]
    exact Nat.add_le_add_left hhp _

/-- Giving up the waiting segment. -/
theorem drop_steps (h : s.Fine F) : Steps F s { s with reorder := none } :=
  ⟨.refl _, .refl _, rfl, id, ⟨fun _ hc => absurd hc.symm (Option.some_ne_none _),
    fun hsp => ⟨rfl, (h.stopped hsp).2⟩, h.track⟩, .inl rfl, .inr rfl⟩

variable {bytes : List UInt8} {c : Candidate} {off : ℕ}

theorem skipTo_steps (h : s.Fine F) (hoff : F.covered off) (ts : Timestamp) :
    Walks F s (s.skipTo off ts) := by
  refine ⟨⟨Path.of_move (.skip off ts hoff), .of_change (.skip off ts), Core.toConfig_skipTo _ _ _,
    fun ha => (Core.anchored_skipTo _ _ _).trans ha, ⟨h.reorder, fun hsp => ?_,
      h.track.skipTo hoff ts⟩, .inl (Core.oow_skipTo _ _ _), .inl rfl⟩, (currentBytes_skipTo s off ts).le⟩
  have hsp : s.stop ≠ none := fun hn => hsp ((Core.stop_skipTo _ _ _).trans hn)
  exact ⟨(h.stopped hsp).1, (Core.oow_skipTo _ _ _).trans (h.stopped hsp).2⟩

/-- Bytes appended to the ready buffer: it has them, or the side stops and holds nothing. -/
theorem appendWithCap_spec (hsp : s.stop = none) (hb : bytes ≠ []) :
    s.toCore.Appended bytes (s.appendWithCap bytes).toCore ∧
      ((s.appendWithCap bytes).reorder = s.reorder ∧ (s.appendWithCap bytes).stop = none ∨
        (s.appendWithCap bytes).reorder = none ∧ (s.appendWithCap bytes).stop ≠ none) := by
  have hpos := List.length_pos_iff.mpr hb
  unfold appendWithCap
  rw [if_neg (by simp [hsp, hb])]
  cases hmax : s.max_buffer with
  | none =>
    exact ⟨⟨.push rfl rfl rfl rfl rfl rfl, rfl, rfl, Core.marked_pushData hb rfl _, .inl ⟨hsp, rfl⟩⟩,
      .inl ⟨rfl, hsp⟩⟩
  | some cap =>
    dsimp only
    by_cases hfit : s.ready.len + bytes.length ≤ cap
    · rw [if_pos hfit]
      exact ⟨⟨.push rfl rfl rfl rfl rfl rfl, rfl, rfl, Core.marked_pushData hb rfl _,
        .inl ⟨hsp, rfl⟩⟩, .inl ⟨rfl, hsp⟩⟩
    · rw [if_neg hfit]
      cases hpol : s.overflow_policy with
      | dropFlow =>
        exact ⟨⟨.overflow rfl rfl rfl cap hmax hpol rfl rfl, rfl, rfl,
          .inr (.inr (Nat.add_pos_right _ hpos)), .inr ⟨Option.some_ne_none _, rfl⟩⟩,
          .inr ⟨rfl, Option.some_ne_none _⟩⟩
      | slidingWindow =>
        by_cases hall : s.ready.len ≤ s.ready.len + bytes.length - cap
        · rw [if_pos hall]
          refine ⟨⟨.slide rfl rfl rfl cap s.ready.len (bytes.length - cap) hmax le_rfl
            (sub_le _ _) (.inr rfl) rfl rfl rfl, rfl, rfl, .inr (.inr ?_), .inl ⟨hsp, rfl⟩⟩,
            .inl ⟨rfl, hsp⟩⟩
          change 0 < s.bytes_dropped_oversize + s.ready.len + (bytes.length - cap)
          omega
        · rw [if_neg hall]
          refine ⟨⟨.slide rfl rfl rfl cap (s.ready.len + bytes.length - cap) 0 hmax (by omega)
            (zero_le _) (.inl rfl) ?_ rfl rfl, rfl, rfl, Core.marked_pushData hb rfl _,
            .inl ⟨hsp, rfl⟩⟩, .inl ⟨rfl, hsp⟩⟩
          rfl

theorem appendWithCap_of_stop (hsp : s.stop ≠ none) (bytes : List UInt8) :
    s.appendWithCap bytes = s := by
  unfold appendWithCap
  rw [if_pos (by simp [Option.isSome_iff_ne_none, hsp])]

/-- Advancing past bytes at the stream position and appending them. -/
theorem append_steps (h : s.Fine F) (hb : bytes ≠ []) (hcar : F.CarriesAt s.track.next_off bytes)
    (hcov : F.covered (s.track.next_off + bytes.length)) (ts : Timestamp) :
    Steps F s ({ s with
      track := s.track.advanceTo (s.track.next_off + bytes.length) ts }.appendWithCap bytes) := by
  obtain ⟨s1, hs1⟩ : ∃ s1 : BufferedReassembler,
    s1 = { s with track := s.track.advanceTo (s.track.next_off + bytes.length) ts } := ⟨_, rfl⟩
  rw [← hs1]
  by_cases hsp : s.stop = none
  · obtain ⟨happ, hcs⟩ := appendWithCap_spec (s := s1) (by rwa [hs1]) hb
    replace happ : { s.toCore with
        track := s.track.advanceTo (s.track.next_off + bytes.length) ts }.Appended bytes
          (s1.appendWithCap bytes).toCore := by
      rwa [hs1] at happ ⊢
    obtain ⟨⟨hmv, hch, hcn⟩, ht, ha, -, hoow⟩ := happ.delivers hsp h.track hcar hcov
    have hre : s1.reorder = s.reorder := by rw [hs1]
    rcases hcs with ⟨hr, hst⟩ | ⟨hr, hst⟩
    · exact ⟨hmv, hch, hcn, ha, ⟨fun c hc => h.reorder c (hre ▸ hr ▸ hc), fun hne => absurd hst hne,
        ht⟩, hoow.imp (fun h => h.2) fun h => h.2, .inl (hr.trans hre)⟩
    · have hno := (hoow.resolve_left fun h => hst h.1).2
      refine ⟨hmv, hch, hcn, ha, ⟨fun c hc => ?_, fun _ => ⟨hr, hno⟩, ht⟩, .inr hno, .inr hr⟩
      rw [hr] at hc
      exact absurd hc.symm (Option.some_ne_none c)
  · rw [appendWithCap_of_stop (by rwa [hs1]), hs1]
    have hoow := oow_advanceTo s.track (s.track.next_off + bytes.length) ts
    exact ⟨.of_move (.jump _ ts hsp hcov), .of_change (.jump _ ts hsp), rfl,
      (anchored_advanceTo _ _ _).trans, ⟨h.reorder, fun _ => ⟨(h.stopped hsp).1,
        hoow.trans (h.stopped hsp).2⟩, h.track.advanceTo hcov ts⟩, .inl hoow, .inl rfl⟩

/-- Delivering the part of a segment that lies past the stream position. -/
theorem deliverAt_steps (h : s.Fine F) {data : List UInt8} (hcar : F.CarriesAt off data)
    (hcov : F.covered (off + data.length)) (hle : off ≤ s.track.next_off) (ts : Timestamp) :
    Steps F s (s.deliverAt off data ts) := by
  unfold deliverAt
  dsimp only
  split_ifs with hend
  · exact .refl h
  · have hlen : (data.drop (s.track.next_off - off)).length = off + data.length - s.track.next_off := by
      rw [List.length_drop]
      omega
    have hadd : off + data.length =
        s.track.next_off + (data.drop (s.track.next_off - off)).length := by omega
    have hcr' := hcar.drop (s.track.next_off - off)
    rw [Nat.add_sub_cancel' hle] at hcr'
    rw [hadd] at hcov ⊢
    exact append_steps h (List.ne_nil_of_length_pos (by omega)) hcr' hcov ts

theorem next_off_le_skipTo (s : BufferedReassembler) (off : ℕ) (ts : Timestamp) :
    off ≤ (s.skipTo off ts).track.next_off := by
  rw [show (s.skipTo off ts).track.next_off = max s.track.next_off off from
    Core.next_off_skipTo _ _ _]
  exact le_max_right _ _

theorem skip_deliver_steps (h : s.Fine F) (hc : F.CandidateOk c) (ts : Timestamp) :
    Steps F s ((s.skipTo c.off ts).deliverAt c.off c.data ts) := by
  have hcov : F.covered (c.off + c.data.length) :=
    F.covered_of_le _ _ (le_add_right _ _) hc.2
  have hsk := skipTo_steps h (F.covered_of_le _ _ (le_add_right _ _) hcov) ts
  exact hsk.toSteps.trans (deliverAt_steps hsk.fine hc.1 hcov (next_off_le_skipTo _ _ _) ts)

section

variable (s : BufferedReassembler)

theorem currentBytes_appendWithCap_le (bytes : List UInt8) :
    (s.appendWithCap bytes).currentBytes ≤ s.currentBytes + bytes.length := by
  by_cases hid : s.stop.isSome || bytes.isEmpty
  · rw [appendWithCap, if_pos hid]
    exact le_add_right _ _
  · simp only [Bool.or_eq_true, Option.isSome_iff_ne_none, List.isEmpty_iff, not_or, not_not] at hid
    obtain ⟨haps, hcs⟩ := appendWithCap_spec hid.1 hid.2
    have hlen := haps.appends.len_le
    rw [currentBytes_eq, currentBytes_eq]
    rcases hcs with ⟨hrr, hst⟩ | ⟨hrr, hst⟩
    · have htr := (haps.rest.resolve_right fun h => h.1 hst).2
      have hsm : (s.appendWithCap bytes).reorderBytes = s.reorderBytes := by
        rw [reorderBytes, reorderBytes, hrr]
      rw [htr]
      omega
    · have hnn : (s.appendWithCap bytes).reorderBytes = 0 := by
        rw [reorderBytes, hrr]
        rfl
      have hhp : (s.appendWithCap bytes).track.heapBytes = 0 := by
        rw [(haps.rest.resolve_left fun h => hst h.1).2]
        exact heapBytes_of_none rfl
      omega

theorem currentBytes_deliverAt_le (off : ℕ) (data : List UInt8)
    (ts : Timestamp) : (s.deliverAt off data ts).currentBytes ≤ s.currentBytes + data.length := by
  unfold deliverAt
  dsimp only
  split_ifs
  · exact le_add_right _ _
  · have had : currentBytes { s with track := s.track.advanceTo (off + data.length) ts } =
        s.currentBytes := by
      rw [currentBytes, currentBytes, heapBytes, heapBytes, oow_advanceTo]
    have hap := currentBytes_appendWithCap_le
      { s with track := s.track.advanceTo (off + data.length) ts }
      (data.drop (s.track.next_off - off))
    have hdr : (data.drop (s.track.next_off - off)).length ≤ data.length := by
      rw [List.length_drop]
      exact sub_le _ _
    omega

theorem currentBytes_releaseReorder_le (ts : Timestamp) :
    (s.releaseReorder ts).currentBytes ≤ s.currentBytes := by
  unfold releaseReorder
  cases hrr : s.reorder with
  | none => exact le_rfl
  | some c =>
    have hdl := currentBytes_deliverAt_le ({ s with reorder := none }.skipTo c.off ts) c.off
      c.data ts
    rw [currentBytes_skipTo] at hdl
    have hold : s.reorderBytes = Candidate.size + c.data.length := by
      rw [reorderBytes, hrr]
      rfl
    have hnew : reorderBytes { s with reorder := none } = 0 := rfl
    rw [currentBytes_eq { s with reorder := none }] at hdl
    rw [currentBytes_eq s]
    dsimp only at hdl ⊢
    omega

end

/-- Releasing the waiting segment leaves none. -/
theorem releaseReorder_steps (h : s.Fine F) (ts : Timestamp) :
    Walks F s (s.releaseReorder ts) ∧ (s.releaseReorder ts).reorder = none := by
  have hby := currentBytes_releaseReorder_le s ts
  unfold releaseReorder at hby ⊢
  cases hr : s.reorder with
  | none => exact ⟨.refl h, hr⟩
  | some c =>
    rw [hr] at hby
    have hdr := drop_steps h
    have hstp := skip_deliver_steps hdr.fine (h.reorder c hr).1 ts
    exact ⟨⟨hdr.trans hstp, hby⟩, hstp.reorder.elim id id⟩

theorem tryReorder_steps (h : s.Fine F) (ts : Timestamp) :
    Steps F s (s.tryReorder ts) ∧
      (∀ c, s.reorder = some c → c.off ≤ s.track.next_off → (s.tryReorder ts).reorder = none) := by
  unfold tryReorder
  cases hr : s.reorder with
  | none => exact ⟨.refl h, fun c hc => by cases hc⟩
  | some c =>
    dsimp only
    split_ifs with hle
    · have hdr := drop_steps h
      have hc := (h.reorder c hr).1
      have hstp := deliverAt_steps hdr.fine hc.1
        (F.covered_of_le _ _ (le_add_right _ _) hc.2) hle ts
      exact ⟨hdr.trans hstp, fun _ _ _ => hstp.reorder.elim id id⟩
    · refine ⟨.refl h, fun c' hc' hle' => ?_⟩
      obtain rfl := Option.some.inj hc'
      exact absurd hle' hle

/-- The stream goes on at a candidate, whose end it reaches if it does not stop, and no segment
waits. -/
theorem resync_steps (h : s.Fine F) (hc : F.CandidateOk c) (ts : Timestamp) :
    Steps F s (s.resync c ts) ∧ (s.resync c ts).reorder = none ∧
      ((s.resync c ts).stop ≠ none ∨ c.end_ ≤ (s.resync c ts).track.next_off) := by
  obtain ⟨hrel, hnn⟩ := releaseReorder_steps h ts
  have hstp := hrel.toSteps.trans (skip_deliver_steps hrel.fine hc ts)
  have hnn' := (skip_deliver_steps hrel.fine hc ts).reorder.elim (fun heq => heq.trans hnn) id
  unfold resync
  dsimp only
  split_ifs with hsp
  · have hls := skipTo_steps hstp.fine hc.2 ts
    exact ⟨hstp.trans hls.toSteps, hls.reorder.elim (fun heq => heq.trans hnn') id,
      .inr (next_off_le_skipTo _ _ _)⟩
  · exact ⟨hstp, hnn', .inl fun hnn => hsp (by rw [hnn]; rfl)⟩

/-! ## Deadlines and acknowledgements -/

/-- A hole that counted as confirmed before the stream moved. -/
theorem Walks.confirm
    (h : Walks F { s with ack_confirmed_gaps := s.ack_confirmed_gaps + 1 } s')
    (hpos : 0 < s'.track.next_off) : Walks F s s' := by
  refine ⟨⟨.trans (.note ?_) h.path, .confirm h.changes (.inr hpos) (.refl _), h.config, h.anchored,
    h.fine, h.oow, h.reorder⟩, h.bytes⟩
  exact ⟨rfl, rfl, rfl, rfl, rfl, rfl⟩

theorem Fine.confirm (h : s.Fine F) :
    ({ s with ack_confirmed_gaps := s.ack_confirmed_gaps + 1 } : BufferedReassembler).Fine F :=
  ⟨h.reorder, h.stopped, h.track⟩

/-- A stream that reaches the waiting segment has moved. -/
theorem releaseReorder_moves (h : s.Fine F) (hc : s.reorder = some c)
    (ts : Timestamp) : 0 < (s.releaseReorder ts).track.next_off := by
  obtain ⟨hok, hpos⟩ := h.reorder c hc
  have hcov : F.covered (c.off + c.data.length) :=
    F.covered_of_le _ _ (le_add_right _ _) hok.2
  have hsk := skipTo_steps (drop_steps h).fine
    (F.covered_of_le _ _ (le_add_right _ _) hcov) ts
  have hrc := next_off_le_skipTo { s with reorder := none } c.off ts
  rw [releaseReorder, hc]
  exact (hpos.trans_le hrc).trans_le
    (deliverAt_steps hsk.fine hok.1 hcov hrc ts).changes.next_off_le

theorem checkEvidence_steps (h : s.Fine F) (now : Timestamp) : Walks F s (s.checkEvidence now) := by
  unfold checkEvidence
  cases hdue : s.track.evidenceDue now s.rules.ack_grace with
  | none => exact .refl h
  | some frontier =>
    obtain ⟨hfrr, hlt⟩ := evidenceDue_eq_some hdue
    have hcov : F.covered frontier := hfrr ▸ h.track.evidence
    have hsk := (skipTo_steps h.confirm hcov now).confirm
      ((zero_lt_of_lt hlt).trans_le (next_off_le_skipTo _ _ _))
    have hrs : ∀ c, s.reorder = some c → _ := fun c hc =>
      (releaseReorder_steps h.confirm now).1.confirm (releaseReorder_moves h.confirm hc now)
    revert hsk hrs
    generalize ({ s with ack_confirmed_gaps := s.ack_confirmed_gaps + 1 } :
      BufferedReassembler) = s1
    intro hsk hrs
    cases hr : s.reorder with
    | none => exact hsk
    | some c =>
      dsimp only
      split_ifs
      · exact hrs c hr
      · exact .refl h

theorem checkTimers_sat (hE : s.rules.Timely E) (h : s.Fine F) (now : Timestamp) :
    (s.checkTimers now).Sat (Walks F s) E := by
  unfold checkTimers
  split_ifs with hsp
  · exact .refl h
  · have h₁ := checkEvidence_steps h now
    have h₂ : Walks F s (if (s.checkEvidence now).holeExpired now then
        (s.checkEvidence now).releaseReorder now else s.checkEvidence now) := by
      split_ifs
      · exact h₁.trans (releaseReorder_steps h₁.fine now).1
      · exact h₁
    revert h₂
    dsimp only
    generalize (if (s.checkEvidence now).holeExpired now then
      (s.checkEvidence now).releaseReorder now else s.checkEvidence now) = s2
    intro h₂
    have hrl : s2.rules = s.rules := congrArg Config.rules h₂.config
    refine Except.Sat.bind ((Duration.mul_sat (hrl ▸ hE)).imp fun limit _ => ?_)
    obtain ⟨hnx, han, hoow⟩ := s2.track.expireStray_keeps now limit
    exact h₂.trans (core_steps h₂.fine ⟨rfl, rfl, hnx, rfl, rfl, rfl⟩
      (.op F.plain (.expireStray now limit) rfl trivial rfl rfl)
      (h₂.fine.track.expireStray now limit) (fun ha => han.trans ha) hoow)

end BufferedReassembler

end Flowscope
