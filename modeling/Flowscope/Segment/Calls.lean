import Flowscope.Segment.Feed

/-!
# The calls of the segment-buffer reassembler

What a call does to the stream (`exec_sat`), and with it what a sequence of calls does: the stream
moves by skips to covered offsets and deliveries of carried bytes (`Turn`), the store keeps its
invariant and stays within budget, and no loop runs longer than there are pieces.
-/

namespace Flowscope

open Except

namespace SegmentBufferReassembler

variable {F : Frame} {E : Fault → Prop} {s s' s'' : SegmentBufferReassembler}

structure CallOk (F : Frame) (s s' : SegmentBufferReassembler) : Prop where
  goes : Goes F s s'
  fine : s'.Fine F
  /-- The store stays past the stream position, unless a long candidate was used. -/
  ahead : s.track.Short → s.Ahead → s'.Ahead

theorem Steps.callOk (h : Steps F s s') : CallOk F s s' := ⟨h.goes, h.fine, fun _ => h.ahead⟩

theorem CallOk.trans_steps (h : CallOk F s s') (h' : Steps F s' s'') : CallOk F s s'' :=
  ⟨h.goes.trans h'.goes, h'.fine, fun hs ha => h'.ahead (h.ahead hs ha)⟩

theorem Steps.trans_callOk (h : Steps F s s') (h' : CallOk F s' s'') : CallOk F s s'' :=
  ⟨h.goes.trans h'.goes, h'.fine, fun hs ha => h'.ahead (hs.of_eq h.calm) (h.ahead ha)⟩

/-- The timers run after a call. -/
theorem CallOk.checkTimers (h : CallOk F s s') (hE : s.rules.Timely E) (ts : Timestamp) :
    (s'.checkTimers ts).Sat (CallOk F s) E := by
  have hrl : s'.rules = s.rules := congrArg Config.rules h.goes.settings.1
  exact (checkTimers_sat (hrl ▸ hE) h.fine ts).imp fun _ h' => h.trans_steps h'.toSteps

/-! ## Acknowledgements and the FIN -/

section

variable (hrf : F.Refeeds) (hE : s.rules.Timely E) (hpl : F.Places s.rules)
  (hN : s.rules.Nested E) (h : s.Fine F)
include hrf hE hpl hN h

/-- The stream goes on at a candidate that was taken out of the track. -/
theorem resync_nesting_sat (ha : s.track.anchored = true)
    (hoow : s.track.oow = none) {c : Candidate} (hc : F.CandidateOk c) (ts : Timestamp) :
    (resync (feed nesting) s c ts).Sat (Resynced F s c) E := by
  refine resync_sat hrf h ha hoow hc fun t ht _ _ hcn seq hft => ?_
  have hrl : t.rules = s.rules := congrArg Config.rules hcn
  rw [← hrl] at hE hpl hN
  exact feed_sat hrf nesting hE hpl ht hft (nests_of_le hN (by decide))

/-- Evidence that was recorded in the track, and the candidate that it corroborated. -/
theorem useEvidence_sat {proved : Track × Option Candidate} {op : Track.Op}
    (hal : F.allows op s.track) (hcr : op.Carries) (hst : op.moves = false)
    (hp : op.exec s.track = proved) (hpr : s.track.Proved proved)
    (hok : F.TrackOk proved.1 ∧ ∀ c, proved.2 = some c → F.CandidateOk c) (ts : Timestamp) :
    (s.useEvidence proved ts).Sat (CallOk F s) E := by
  obtain ⟨track, used⟩ := proved
  have hlk : Like s { s with track } :=
    ⟨⟨rfl, rfl, hpr.next_off, rfl, rfl, rfl⟩, rfl, rfl, rfl⟩
  have han : s.track.anchored = true → track.anchored = true := hpr.anchored.trans
  have hfn := hlk.fine h hok.1
  cases used with
  | none =>
    have hch := (Core.Changes.exec op hal hcr hst hp).1 rfl
    exact ⟨hlk.goes hch han, hfn, fun _ => hlk.ahead⟩
  | some c =>
    obtain ⟨hold, hoow, ha⟩ := hpr.used c rfl
    refine (resync_nesting_sat (s := { s with track }) hrf hE hpl hN hfn
      (hpr.anchored.trans ha) hoow (hok.2 c rfl) ts).imp fun s' h' => ?_
    have hgo := h'.goes_of_exec op hal hcr hst hp hlk han
    exact ⟨hgo, h'.fine, fun hsh _ => h'.ahead (hsh c hold)⟩

end

variable {ts : Timestamp} {call : Call} {out : StreamChunks} {end_ depth : ℕ} {seq len : Seq}

section

variable (hrf : F.Refeeds) (hE : s.rules.Timely E) (hpl : F.Places s.rules)
  (hN : s.rules.Nested E) (h : s.Fine F)
include hrf hE hpl hN h

theorem peerAck_sat {ack : Seq}
    (hack : F.Knows s.track (.peerAck ack ts)) : (s.peerAck ack ts).Sat (CallOk F s) E := by
  unfold peerAck
  split_ifs
  · exact (Steps.refl h).callOk
  · refine Sat.bind ((useEvidence_sat hrf hE hpl hN h (hack.1 _) trivial rfl rfl
      (s.track.proved_recordEvidence _ _ _) (h.track.recordEvidence hack.2 _ _) ts).imp fun s' h' => ?_)
    exact h'.checkTimers hE ts

theorem finSeen_sat {end_ : Seq}
    (hend : F.Knows s.track (.finSeen end_ ts)) : (s.finSeen end_ ts).Sat (CallOk F s) E := by
  unfold finSeen
  split_ifs
  · exact (Steps.refl h).callOk
  · exact useEvidence_sat hrf hE hpl hN h (hend.1 _) trivial rfl rfl
      (s.track.proved_fin _ _ _) (h.track.fin hend.2 _ _) ts

end

/-! ## Cut bytes -/

/-- One iteration of the loop over cut bytes: pieces go, or their end is reached. -/
theorem skipMissing_sat (h : s.Fine F) (hend : F.covered end_) (ts : Timestamp) :
    (s.skipMissing end_ ts).Sat (fun t => Steps F s t ∧
      (t.oooPieces < s.oooPieces ∨ end_ ≤ t.track.next_off)) E := by
  obtain ⟨off, hoff, hle, hfr⟩ : ∃ off, s.skipMissing end_ ts = (s.skipTo off ts).deliverAll ts ∧
      off ≤ end_ ∧ (off = end_ ∨ s.firstStart = some off) := by
    unfold skipMissing
    cases hf : s.firstStart with
    | none => exact ⟨end_, rfl, le_rfl, .inl rfl⟩
    | some first =>
      refine ⟨min first end_, rfl, min_le_right _ _, ?_⟩
      rcases min_choice first end_ with hmin | hmin
      · exact .inr (by rw [hmin])
      · exact .inl hmin
  have hcov : F.covered off := F.covered_of_le _ _ hle hend
  have hfn : (s.skipTo off ts).Fine F := ⟨h.held.skipTo off ts, h.track.skipTo hcov ts⟩
  rw [hoff]
  refine (deliverAll_sat hfn ts).imp fun t ⟨hstp, hah, hsz⟩ => ?_
  refine ⟨⟨(skipTo_goes hcov ts).trans hstp.goes, hstp.fine,
    (calm_skipTo s off ts).trans hstp.calm, fun _ => hah, hstp.from_⟩, ?_⟩
  rcases hsz with rfl | hsz
  · refine .inr ?_
    rw [next_off_skipTo]
    rcases hfr with rfl | hfr
    · exact le_max_right _ _
    · -- the stream would have reached the first piece
      obtain ⟨o, ho, hf⟩ := Option.bind_eq_some_iff.mp hfr
      obtain ⟨e, he, rfl⟩ := Option.map_eq_some_iff.mp hf
      have := hah o ho e.1 e.2 (OrdMap.first?_eq_some he).1
      rw [next_off_skipTo] at this
      omega
  · exact .inl hsz

/-- Cut bytes that the stream has reached. The measure is the pieces that are left, and one for the
rest of the cut bytes. -/
theorem skipCut_sat (h : s.Fine F) (hend : F.covered end_) (ts : Timestamp) :
    (s.skipCut end_ ts).Sat (Steps F s) E := by
  refine Sat.bind ((whileDo_sat (fun t => Steps F s t)
    (fun t => if t.track.next_off < end_ then t.oooPieces + 1 else 0) (fun t ht hg => ?_)
    (fun t ht hg => ?_) (s.oooPieces + 1) s (.refl h) ?_).imp fun t ht => ?_)
  · simp only [Bool.and_eq_true, decide_eq_true_eq] at hg
    rw [if_pos hg.2]
    omega
  · simp only [Bool.and_eq_true, decide_eq_true_eq] at hg
    refine (skipMissing_sat ht.fine hend ts).imp fun t' ht' => ⟨ht.trans ht'.1, ?_⟩
    split_ifs <;> omega
  · split_ifs <;> omega
  · exact ht.1.trans (updateWatermark_steps ht.1.fine)

/-- An unanchored side is anchored first. -/
theorem missingFrom_anchor (hsp : s.stop = none) (hlen : len ≠ 0) :
    s.missingFrom (depth + 1) seq len ts =
      ({ s with track := s.track.anchor seq ts } : SegmentBufferReassembler).missingFrom (depth + 1)
        seq len ts := by
  have hrun : ¬ (s.stop.isSome || len = 0) = true := by simpa [hsp] using hlen
  rw [missingFrom, missingFrom, if_neg hrun, if_neg hrun,
    Track.anchor_of_anchored (Track.anchored_anchor s.track seq ts)]

/-- Cut bytes. The induction is on the nested calls, as it is for segments. -/
theorem missingFrom_sat (hrf : F.Refeeds) (hct : F.Cuts seq len)
    (hpf : ∀ max_ahead t, F.allows (.recordEvidence (seq + len) ts max_ahead) t)
    (depth : ℕ) : ∀ {s : SegmentBufferReassembler}, s.rules.Timely E →
    F.Places s.rules → s.rules.Nested E → s.Fine F → s.Nests E depth →
      (s.missingFrom depth seq len ts).Sat (CallOk F s) E := by
  induction depth with
  | zero =>
    intro s _ _ _ _ hns
    refine hns.resolve_right fun hn => ?_
    omega
  | succ depth ih =>
    intro s0 hE hpl hN h0 hns
    rw [missingFrom]
    split_ifs with hid
    · exact (Steps.refl h0).callOk
    obtain ⟨hsp, hlen⟩ : s0.stop = none ∧ len ≠ 0 := by simpa using hid
    have har := anchor_steps h0 seq ts
    refine Sat.imp ?_ fun _ h' => har.trans_callOk h'
    -- the rest is about the anchored side
    have ha := Track.anchored_anchor s0.track seq ts
    replace hns := hns.anchor seq ts
    extract_lets s start end_ next
    have h : s.Fine F := har.fine
    split_ifs with hold hfar
    · exact (Steps.refl h).callOk
    · have hok := h.track.farMissing (hct.asU64 hpl h.track.window ha hfar) ts s.rules.max_ahead
      have hkp := s.track.farMissing_keeps (asU64 (s.track.offsetOf seq)) len.toNat ts
        s.rules.max_ahead
      have hcr : len.toNat ≠ 0 := fun hzr => hlen (BitVec.eq_of_toNat_eq hzr)
      generalize hp : s.track.farMissing (asU64 (s.track.offsetOf seq)) len.toNat ts
        s.rules.max_ahead = p at hok hkp
      obtain ⟨track, used⟩ := p
      have hlk : Like s { s with track } := ⟨⟨rfl, rfl, hkp.1, rfl, rfl, rfl⟩, rfl, rfl, rfl⟩
      have han : s.track.anchored = true → track.anchored = true := hkp.2.1.trans
      have hfn := hlk.fine h hok.1
      cases used with
      | none =>
        have hch := (Core.Changes.exec (.farMissing _ _ ts _) (F.plain _ _ rfl) hcr rfl hp).1 rfl
        exact CallOk.checkTimers ⟨hlk.goes hch han, hfn, fun _ => hlk.ahead⟩ hE ts
      | some c =>
        obtain ⟨hc, hoow⟩ := hok.2 c rfl
        have hold := hkp.2.2.1 c rfl
        refine Sat.bind ((resync_nesting_sat (s := { s with track }) hrf hE hpl
          hN hfn (hkp.2.1.trans ha) hoow hc ts).imp fun s1 h₁ => ?_)
        have hrl : s1.rules = s.rules := congrArg Config.rules h₁.goes.settings.1
        have hbf : s.rules.max_ahead < 2^63 → s.track.next_off ≤ c.off := by
          intro hmax
          rw [asI64_of_lt hmax] at hfar
          have := hkp.2.2.2 c rfl
          rw [asU64_of_nonneg (by omega)] at this
          omega
        have hgo := h₁.goes_of_exec (.farMissing _ _ ts _) (F.plain _ _ rfl) hcr rfl hp hlk han
        have hns1 := hns.resynced h₁ hold hbf rfl hkp.1 rfl
        refine (ih (hrl ▸ hE) (hrl ▸ hpl) (hrl ▸ hN) h₁.fine hns1).imp
          fun s2 h₂ => ⟨hgo.trans h₂.goes, h₂.fine, fun hsh _ => ?_⟩
        exact h₂.ahead (h₁.short (hsh c hold)) (h₁.ahead (hsh c hold))
    · refine Sat.bind ((skipCut_sat h (hct.1 _ h.track.window ha) ts).imp fun s1 h₁ => ?_)
      exact h₁.callOk.checkTimers hE ts
    · refine Sat.bind ((useEvidence_sat (s := s) hrf hE hpl hN h (hpf _ _) trivial rfl rfl
        (s.track.proved_recordEvidence _ _ _) (h.track.recordEvidence hct.2 _ _) ts).imp
        fun s1 h₁ => ?_)
      exact h₁.checkTimers hE ts

/-! ## The end of the flow -/

/-- Flushing leaves no store and no candidate. -/
theorem flushPending_sat (h : s.Fine F) :
    s.flushPending.Sat
      (fun t => Walks F s t ∧ t.ooo = none ∧ t.track.oow = none) E := by
  refine Sat.bind ((flushOoo_sat h s.track.last_progress).imp fun s1 ⟨h₁, hnn, _⟩ => ?_)
  have hdn : ∀ s2, Walks F s1 s2 → s2.ooo = none →
      Walks F s { s2 with track := s2.track.dropStray } ∧
        ({ s2 with track := s2.track.dropStray } : SegmentBufferReassembler).ooo = none ∧
        ({ s2 with track := s2.track.dropStray } : SegmentBufferReassembler).track.oow = none := by
    intro s2 h₂ hnn2
    refine ⟨(h₁.trans h₂).trans ?_, hnn2, rfl⟩
    exact Like.walks ⟨⟨rfl, rfl, rfl, rfl, rfl, rfl⟩, rfl, rfl, rfl⟩ h₂.fine
      (.op F.plain .dropStray rfl trivial rfl rfl) h₂.fine.track.dropStray id (.inr rfl)
  cases hf : s1.track.evidenceFrontier with
  | none => exact hdn s1 (.refl h₁.fine) hnn
  | some frontier =>
    split_ifs with hsp
    · obtain ⟨hfrr, hlt⟩ := Track.evidenceFrontier_eq_some hf
      have hcov : F.covered frontier := hfrr ▸ h₁.fine.track.evidence
      refine hdn _ ((skipTo_steps h₁.fine.confirm hnn hcov _).confirm ?_) hnn
      rw [next_off_skipTo]
      exact lt_max_of_lt_right (Nat.zero_lt_of_lt hlt)
    · exact hdn s1 (.refl h₁.fine) hnn

/-! ## All calls -/

variable (config : Config) (max_ooo_buffer : ℕ) (policy : TcpOverlapPolicy)

theorem fine_new : (new config max_ooo_buffer policy).Fine .any :=
  ⟨.of_none rfl, Frame.trackOk_any _⟩

/-- What a call leads to, with the output that the consumer has collected. -/
structure Done (F : Frame) (call : Call) (s s' : SegmentBufferReassembler × StreamChunks) :
    Prop where
  turn : call.drops = false → Turn F (s.1.toCore, s.2) (s'.1.toCore, s'.2)
  fine : s'.1.Fine F
  settings : s'.1.toConfig = s.1.toConfig ∧ s'.1.overlap_policy = s.1.overlap_policy ∧
    s'.1.max_ooo_buffer = s.1.max_ooo_buffer
  bounded : s.1.charged ≤ s.1.max_ooo_buffer → s'.1.charged ≤ s'.1.max_ooo_buffer
  /-- The store stays past the stream position, unless a long candidate was used. -/
  ahead : s.1.track.Short → s.1.Ahead → s'.1.Ahead
  changes : call ≠ .release → s.1.toCore.Changes F.allows s'.1.toCore

theorem CallOk.done (h : CallOk F s s') : Done F call (s, out) (s', out) :=
  ⟨fun _ => .path out h.goes.path, h.fine, h.goes.settings, h.goes.bounded, h.ahead,
    fun _ => h.goes.changes⟩

/-- A segment, with the output that passes through. -/
theorem FeedOk.done {payload : List UInt8} {pass : Bool} {skip : ℕ}
    (h : FeedOk F s seq payload pass (s', .passthrough skip)) (out : StreamChunks) :
    Done F call (s, out) (s', out.pushData (payload.drop skip)) := by
  have hah := h.ahead
  cases h.fed with
  | passed goes passed ooo settings changes fine =>
    refine ⟨fun _ => .pass out _ goes.path passed, fine, ⟨?_, ?_, ?_⟩, fun _ => ?_, hah,
      fun _ => changes⟩
    · exact passed.config.trans goes.settings.1
    · exact settings.1.trans goes.settings.2.1
    · exact settings.2.trans goes.settings.2.2
    · exact (charged_of_none ooo).trans_le (Nat.zero_le _)

/-- What every call leads to. -/
theorem exec_sat (hrf : F.Refeeds) {s : SegmentBufferReassembler × StreamChunks}
    (hE : s.1.rules.Timely E) (hpl : F.Places s.1.rules) (hN : s.1.rules.Nested E)
    (h : s.1.Fine F) (hcl : F.Knows s.1.track call) :
    (call.exec s).Sat (Done F call s) E := by
  obtain ⟨s, out⟩ := s
  have hns : s.Nests E nesting := nests_of_le hN (by decide)
  cases call with
  | segment seq payload ts =>
    refine Sat.bind (Sat.bind ((feed_sat hrf nesting hE hpl h hcl.2
      hns).imp fun r hr => ?_))
    obtain ⟨s', o⟩ := r
    obtain rfl : o = .buffered := hr.kept rfl
    cases hr.fed with
    | buffered goes fine => exact CallOk.done ⟨goes, fine, hr.ahead⟩
  | segmentInto seq payload ts =>
    refine Sat.bind ((feed_sat hrf nesting hE hpl h hcl.2 hns).imp fun r hr => ?_)
    obtain ⟨s', o⟩ := r
    cases o with
    | buffered =>
      cases hr.fed with
      | buffered goes fine => exact CallOk.done ⟨goes, fine, hr.ahead⟩
    | passthrough skip => exact hr.done out
  | setOrigin seq => exact (anchor_steps h seq _).callOk.done
  | peerAck ack ts =>
    exact Sat.bind ((peerAck_sat hrf hE hpl hN h hcl).imp fun _ h' => h'.done)
  | finSeen end_ ts =>
    exact Sat.bind ((finSeen_sat hrf hE hpl hN h hcl).imp fun _ h' => h'.done)
  | missing seq len ts =>
    exact Sat.bind ((missingFrom_sat hrf hcl.2 hcl.1 nesting hE hpl hN h
      hns).imp fun _ h' => h'.done)
  | drainInto =>
    exact ⟨fun _ => .drain s.toCore out, ⟨h.held.of_eq rfl rfl id, h.track⟩, ⟨rfl, rfl, rfl⟩, id,
      fun _ => id, fun _ => .note ⟨rfl, rfl, rfl, rfl, rfl, le_rfl, rfl⟩⟩
  | flushPending =>
    exact Sat.bind ((flushPending_sat h).imp fun _ h' => h'.1.callOk.done)
  | advanceTime now =>
    exact Sat.bind ((checkTimers_sat hE h now).imp fun _ h' => h'.callOk.done)
  | take =>
    exact ⟨(absurd ·.symm Bool.false_ne_true), ⟨h.held.of_eq rfl rfl id, h.track⟩, ⟨rfl, rfl, rfl⟩, id,
      fun _ => id, fun _ => .note ⟨rfl, rfl, rfl, rfl, rfl, le_rfl, rfl⟩⟩
  | release =>
    exact ⟨(absurd ·.symm Bool.false_ne_true), ⟨.of_none rfl, h.track.dropStray⟩, ⟨rfl, rfl, rfl⟩,
      fun _ => Nat.zero_le _, fun _ _ => From.of_none rfl, fun hne => absurd rfl hne⟩

/-- What holds of the state after every call, as long as the calls meet a condition, holds after a
sequence of them. -/
theorem run_done {I : SegmentBufferReassembler × StreamChunks → Prop}
    {G : Call → SegmentBufferReassembler × StreamChunks → Prop} (hrf : F.Refeeds) {config : Config}
    (hpl : F.Places config.rules)
    (hstp : ∀ call s s', G call s → s.1.Fine F → Done F call s s' → I s → I s')
    {calls : List Call} {s : SegmentBufferReassembler × StreamChunks}
    (h : Call.Along (fun call s => F.Knows s.1.track call ∧ G call s) calls s) (hI : I s)
    (hfn : s.1.Fine F) (hcn : s.1.toConfig = config) :
    (Call.run calls s).Sat (fun t => I t ∧ t.1.Fine F ∧ t.1.toConfig = config)
      config.rules.Faults := by
  refine runs_sat (fun call s hcl hs => ?_) h ⟨hI, hfn, hcn⟩
  have hrl : s.1.rules = config.rules := congrArg Config.rules hs.2.2
  refine (exec_sat hrf (hrl ▸ config.rules.timely_faults) (hrl ▸ hpl)
    (hrl ▸ config.rules.nested_faults) hs.2.1
    hcl.1).imp fun s' hdn => ?_
  exact ⟨hstp call s s' hcl.2 hs.2.1 hdn hs.1, hdn.fine, hdn.settings.1.trans hs.2.2⟩

/-- Every reachable state is in the invariant. -/
theorem run_fine (calls : List Call) :
    (Call.run calls (new config max_ooo_buffer policy, .new)).Sat (fun t => t.1.Fine .any)
      config.rules.Faults := by
  refine (run_done (G := fun _ _ => True) Frame.refeeds_any
    (Frame.places_any _) (fun _ _ _ _ _ _ _ => trivial) ?_ trivial (fine_new _ _ _) rfl).imp
    fun t ht => ht.2.1
  exact (Along.of_forall (fun _ _ => trivial) _).imp
    fun call _ _ => ⟨Frame.knows_any _ call, trivial⟩

/-! ## Before the anchor -/

/-- A call that anchors the stream does what it does to a stream anchored there. -/
theorem exec_anchor (hsp : s.stop = none) (h : call.anchorAt = some (seq, ts)) :
    call.exec (s, out) =
      call.exec (({ s with track := s.track.anchor seq ts } : SegmentBufferReassembler), out) := by
  refine Call.exec_congr h (fun payload hpay => ?_) (fun payload hpay => feed_anchor hsp hpay)
    (fun hts => ?_) fun len hlen => missingFrom_anchor hsp hlen
  · have hfd : s.feed nesting seq payload ts false = _ := feed_anchor hsp hpay
    simp only [Reassembler.segment, segment, hfd]
    rfl
  · simp only [Reassembler.setOrigin, setOrigin, hts,
      Track.anchor_of_anchored (Track.anchored_anchor _ _ _)]

theorem checkTimers_new (now : Timestamp) :
    ((new config max_ooo_buffer policy).checkTimers now).Sat
      (· = new config max_ooo_buffer policy) config.rules.Faults := by
  have hnn : (new config max_ooo_buffer policy).checkEvidence now =
      .ok (new config max_ooo_buffer policy) := rfl
  unfold checkTimers
  rw [hnn, ok_bind]
  refine Sat.bind ((Duration.mul_sat config.rules.timely_faults).imp fun limit _ => ?_)
  rfl

/-- Before the anchor, the other calls do nothing. -/
theorem exec_new (h : call.anchorAt = none) (hdr : call.drops = false) :
    (call.exec (new config max_ooo_buffer policy, StreamChunks.new)).Sat
      (· = (new config max_ooo_buffer policy, .new)) config.rules.Faults :=
  Call.exec_idle h hdr (fun _ _ => rfl) (fun _ _ => rfl) (fun _ _ => rfl)
    (fun _ => checkTimers_new config max_ooo_buffer policy) (fun _ _ => rfl) rfl rfl
    (checkTimers_new config max_ooo_buffer policy)

end SegmentBufferReassembler

end Flowscope
