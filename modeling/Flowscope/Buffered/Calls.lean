import Flowscope.Buffered.Walk

/-!
# The calls of the buffered reassembler

What a call does to the stream (`exec_sat`), and with it what a sequence of calls does: the stream
moves by skips to covered offsets and deliveries of carried bytes (`Turn`).
-/

namespace Flowscope

open Option Track Except

namespace BufferedReassembler

variable {F : Frame} {E : Fault → Prop} {s s' s'' : BufferedReassembler}

structure CallOk (F : Frame) (s s' : BufferedReassembler) : Prop where
  path : Path F s.toCore s'.toCore
  changes : s.toCore.Changes F.allows s'.toCore
  config : s'.toConfig = s.toConfig
  fine : s'.Fine F

theorem Steps.callOk (h : Steps F s s') : CallOk F s s' :=
  ⟨h.path, h.changes, h.config, h.fine⟩

theorem CallOk.trans (h : CallOk F s s') (h' : CallOk F s' s'') : CallOk F s s'' :=
  ⟨h.path.trans h'.path, h.changes.trans h'.changes, h'.config.trans h.config, h'.fine⟩

/-- The timers run after a call. -/
theorem CallOk.checkTimers (h : CallOk F s s') (hE : s.rules.Timely E) (ts : Timestamp) :
    (s'.checkTimers ts).Sat (CallOk F s) E := by
  have hrl : s'.rules = s.rules := congrArg Config.rules h.config
  exact (checkTimers_sat (hrl ▸ hE) h.fine ts).imp fun _ h' => h.trans h'.callOk

/-! ## Feeding -/

/-- What feeding a segment leads to: a step, or a step after which the segment passes through. -/
inductive Fed (F : Frame) (s : BufferedReassembler) (payload : List UInt8) (pass : Bool) :
    BufferedReassembler × SegmentOutcome → Prop where
  /-- The segment was taken in. -/
  | buffered {s' : BufferedReassembler} (ok : CallOk F s s') : Fed F s payload pass (s', .buffered)
  /-- The segment passes through, and nothing is held. -/
  | passed {s₁ s' : BufferedReassembler} {skip : ℕ} (ok : CallOk F s s₁)
      (passed : s₁.toCore.Passed F (payload.drop skip) s'.toCore)
      (changes : s.toCore.Changes F.allows s'.toCore) (fine : s'.Fine F)
      (asked : pass = true) : Fed F s payload pass (s', .passthrough skip)

variable {payload : List UInt8} {ts : Timestamp} {r : BufferedReassembler × SegmentOutcome}
  {seq len : Seq} {pass : Bool} {call : Call} {end_ : ℕ} {out : StreamChunks}

theorem Fed.of_callOk (h : CallOk F s s') (hr : Fed F s' payload pass r) :
    Fed F s payload pass r := by
  cases hr with
  | buffered ok => exact .buffered (h.trans ok)
  | passed ok passed changes fine asked =>
    exact .passed (h.trans ok) passed (h.changes.trans changes) fine asked

/-- Fed without passing through. -/
theorem Fed.of_false (hr : Fed F s payload false r) : Fed F s payload pass r := by
  cases hr with
  | buffered ok => exact .buffered ok
  | passed ok passed changes fine asked => exact absurd asked Bool.false_ne_true

/-- A segment that the stream has reached and that reaches past it. -/
theorem feedInOrder_sat (hE : s.rules.Timely E) (h : s.Fine F) (hsp : s.stop = none)
    (ha : s.track.anchored = true) (hft : F.Fits seq payload)
    {start end_ : ℤ} (hsr : start = s.track.offsetOf seq)
    (hend : end_ = start + payload.length) (hlt : (s.track.next_off : ℤ) < end_)
    (hle : start ≤ s.track.next_off) (ts : Timestamp) (pass : Bool) :
    (s.feedInOrder start end_ payload ts pass).Sat (Fed F s payload pass) E := by
  unfold feedInOrder
  dsimp only
  obtain ⟨s₁, hs1⟩ : ∃ s₁, s₁ = if start < s.track.next_off then
    { s with retransmits := s.retransmits + 1 } else s := ⟨_, rfl⟩
  have h₁ : Steps F s s₁ ∧ s₁.track = s.track ∧ s₁.stop = s.stop := by
    rw [hs1]
    split_ifs
    · exact ⟨(core_steps h (c := { s.toCore with retransmits := s.retransmits + 1 })
        ⟨rfl, rfl, rfl, rfl, rfl, rfl⟩ (.note ⟨rfl, rfl, rfl, rfl, rfl, le_rfl, rfl⟩) h.track id
        (.inl rfl)).toSteps, rfl, rfl⟩
    · exact ⟨.refl h, rfl, rfl⟩
  obtain ⟨h₁, htr, hsp1⟩ := h₁
  obtain ⟨skip, hsk⟩ : ∃ n, n = ((s.track.next_off : ℤ) - start).toNat := ⟨_, rfl⟩
  rw [← hs1, ← hsk]
  rw [← htr] at hsr hlt hle hsk
  have hlen : (payload.drop skip).length = payload.length - skip := List.length_drop
  have hne : payload.drop skip ≠ [] := List.ne_nil_of_length_pos (by omega)
  have hcar : F.CarriesAt s₁.track.next_off (payload.drop skip) :=
    hft.carriesAt h₁.fine.track.window (htr ▸ ha) (by omega)
  have hadd : end_.toNat = s₁.track.next_off + (payload.drop skip).length := by omega
  have hcov : F.covered (s₁.track.next_off + (payload.drop skip).length) := by
    have := (hft s₁.track h₁.fine.track.window (htr ▸ ha)).1
    rwa [← hsr, ← hend, hadd] at this
  rw [hadd, ← hlen]
  split_ifs with hps
  · simp only [Bool.and_eq_true] at hps
    have hmr : ({ s₁.toCore with
        track := s₁.track.advanceTo (s₁.track.next_off + (payload.drop skip).length) ts } :
          Core).notePassthrough (payload.drop skip).length |>.Marked :=
      .inr (.inl (lt_max_of_lt_right (List.length_pos_iff.mpr hne)))
    refine .passed h₁.callOk ⟨hps.1.1.2, rfl, hsp1.trans hsp, rfl, ?_, hcar, hcov, rfl, rfl,
      rfl⟩ (h₁.changes.trans (.of_change (.move _ ts rfl rfl rfl hmr)))
      ⟨h₁.fine.reorder, fun hne => absurd (hsp1.trans hsp) hne,
        h₁.fine.track.advanceTo hcov ts⟩ hps.1.1.1
    show (s₁.track.advanceTo _ ts).next_off = _
    simp
  · have h₂ := h₁.trans (append_steps h₁.fine hne hcar hcov ts)
    have h₃ := h₂.trans (tryReorder_steps h₂.fine ts).1
    refine Sat.bind ((h₃.callOk.checkTimers hE ts).imp fun s4 h4 => ?_)
    exact .buffered h4

theorem anchor_steps (h : s.Fine F) (seq : Seq) (ts : Timestamp) :
    Walks F s { s with track := s.track.anchor seq ts } :=
  core_steps h
    ⟨rfl, rfl, next_off_anchor _ _ _, rfl, rfl, rfl⟩
    (.op F.plain (.anchor seq ts) rfl trivial rfl rfl) (h.track.anchor seq ts)
    (fun _ => anchored_anchor _ _ _) (.inl (oow_anchor _ _ _))

/-- Counting an old segment. -/
theorem noteOld_steps (h : s.Fine F) (start end_ : ℤ) :
    Walks F s { s with toCore := s.toCore.noteOld start end_ } := by
  obtain ⟨hsm, ht, ha, hoow⟩ := Core.noteOld_spec h.track start end_
  exact core_steps h hsm (s.toCore.noteOld_changes F.plain start end_) ht
    (fun h => ha.trans h) (.inl hoow)

variable (config : Config) {depth : ℕ}

/-- An unanchored side is anchored first. -/
theorem feed_anchor (hsp : s.stop = none) (hpay : payload ≠ []) :
    s.feed (depth + 1) seq payload ts pass =
      ({ s with track := s.track.anchor seq ts } : BufferedReassembler).feed (depth + 1) seq
        payload ts pass := by
  have hrun : ¬ (payload.isEmpty || s.stop.isSome) = true := by simp [hsp, hpay]
  rw [feed, feed, if_neg hrun, if_neg hrun, anchor_of_anchored (anchored_anchor s.track seq ts)]

/-- Holding a segment ahead of the stream. -/
theorem hold_callOk (h : s.Fine F) (hsp : s.stop = none) {off : ℕ} (hpos : 0 < off)
    (hcar : F.CarriesAt off payload) (hcov : F.covered (off + payload.length)) (ts : Timestamp) :
    CallOk F s (s.hold off payload ts) := by
  refine ⟨Path.note ⟨rfl, rfl, rfl, rfl, rfl, rfl⟩,
    .op F.plain (.openHole ts) rfl trivial rfl rfl, rfl,
    ⟨fun c hc => ?_, fun hne => absurd hsp hne, ?_⟩⟩
  · obtain rfl := some.inj hc
    exact ⟨⟨hcar, hcov⟩, hpos⟩
  · exact h.track.congr (F.window_congr s.track _ rfl rfl rfl h.track.window) rfl (.inl rfl)

/-- So many nested calls are enough: one that uses the candidate and one that gives up the waiting
segment, each of which leaves neither. -/
def Nests (s : BufferedReassembler) (depth : ℕ) : Prop :=
  3 ≤ depth ∨ s.reorder = none ∧ (2 ≤ depth ∨ s.track.oow = none ∧ 1 ≤ depth)

/-- The stream goes on at a candidate that an operation takes. -/
theorem resync_callOk {track : Track} {c : Candidate}
    (hfn : ({ s with track } : BufferedReassembler).Fine F) (hc : F.CandidateOk c) (op : Track.Op)
    (hal : F.allows op s.track) (hcr : op.Carries) (hst : op.moves = false)
    (hp : op.exec s.track = (track, some c)) (hsm : s.toCore.Same { s.toCore with track })
    (ts : Timestamp) :
    CallOk F s (resync { s with track } c ts) ∧ (resync { s with track } c ts).reorder = none ∧
      ((resync { s with track } c ts).track.oow = track.oow ∨
        (resync { s with track } c ts).track.oow = none) := by
  obtain ⟨h, hnn, hrc⟩ := resync_steps hfn hc ts
  exact ⟨⟨(Path.note hsm).trans h.path,
    (Core.Changes.exec op hal hcr hst hp).2 c _ rfl h.changes hrc, h.config,
    h.fine⟩, hnn, h.oow⟩

/-- Feeding a segment. The induction is on the nested calls. -/
theorem feed_sat (depth : ℕ) : ∀ {s : BufferedReassembler} {seq : Seq} {payload : List UInt8}
    {ts : Timestamp} {pass : Bool}, s.rules.Timely E → F.Places s.rules → s.Fine F →
    F.Fits seq payload → s.Nests depth →
      (s.feed depth seq payload ts pass).Sat (Fed F s payload pass) E := by
  induction depth with
  | zero =>
    intro s seq payload ts pass _ _ _ _ hns
    unfold Nests at hns
    omega
  | succ depth ih =>
    intro s0 seq payload ts pass hE hpl h0 hft hns
    rw [feed]
    split_ifs with hid
    · exact .buffered (Steps.refl h0).callOk
    obtain ⟨hpay, hsp⟩ : payload ≠ [] ∧ s0.stop = none := by simpa using hid
    have har := anchor_steps h0 seq ts
    have ha := anchored_anchor s0.track seq ts
    rw [Nests, ← oow_anchor s0.track seq ts] at hns
    refine Sat.imp ?_ fun _ => Fed.of_callOk har.callOk
    -- the rest is about the anchored side
    extract_lets s start end_ next old
    have h : s.Fine F := har.fine
    -- after a step that left nothing behind, the segment is fed again
    have hag : ∀ s1, CallOk F s s1 → s1.Nests depth →
        (s1.feed depth seq payload ts false).Sat (Fed F s payload pass) E := by
      intro s1 h1 hns1
      have hrl : s1.rules = s.rules := congrArg Config.rules h1.config
      exact (ih (hrl ▸ hE) (hrl ▸ hpl) h1.fine hft hns1).imp fun r hr => (hr.of_callOk h1).of_false
    split_ifs with hfar hold hah hso
    · obtain ⟨hcar, hcov⟩ := hft.asU64 hpl h.track.window ha hfar
      have hok := h.track.farAhead hcar hcov ts s.rules.max_ahead
      rcases s.track.farAhead_cases (asU64 (s.track.offsetOf seq)) payload ts s.rules.max_ahead
        with ⟨c, hoow, -, heq⟩ | heq
      · rw [heq] at hok ⊢
        have hfn : ({ s with track := s.track.takeStray } : BufferedReassembler).Fine F :=
          ⟨h.reorder, fun hne => absurd hsp hne, hok.1⟩
        obtain ⟨h1, hnn, hno⟩ := resync_callOk hfn (hok.2 c rfl).1 (.farAhead _ payload ts _)
          (F.plain _ _ rfl) hpay rfl (Track.Op.exec_farAhead heq) ⟨rfl, rfl, rfl, rfl, rfl, rfl⟩ ts
        refine hag _ h1 (.inr ⟨hnn, .inr ⟨hno.elim id id, ?_⟩⟩)
        rcases hns with hn | ⟨-, hn | hn⟩
        · omega
        · omega
        · exact absurd (hoow.symm.trans hn.1) (some_ne_none c)
      · rw [heq] at hok ⊢
        have hhl := (Core.Changes.exec (.farAhead _ payload ts _) (F.plain _ _ rfl) hpay rfl
          (Track.Op.exec_farAhead_held heq)).1 rfl
        exact .buffered ⟨Path.note ⟨rfl, rfl, rfl, rfl, rfl, rfl⟩, hhl, rfl,
          ⟨h.reorder, fun hne => absurd hsp hne, hok.1⟩⟩
    · have h1 : Walks F s { s with toCore := old } := noteOld_steps h start end_
      clear_value old
      exact Sat.bind ((h1.callOk.checkTimers hE ts).imp fun s2 h2 => .buffered h2)
    · obtain ⟨h1, hnn⟩ := releaseReorder_steps h ts
      refine hag _ h1.callOk (.inr ⟨hnn, .inl ?_⟩)
      rcases hns with hn | hn
      · omega
      · exact absurd hso (by rw [hn.1]; exact Bool.false_ne_true)
    · have hcar : F.CarriesAt start.toNat (payload.drop 0) :=
        hft.carriesAt h.track.window ha (by omega)
      have hcov := (hft s.track h.track.window ha).1
      rw [show (s.track.offsetOf seq + payload.length).toNat = start.toNat + payload.length by
        omega] at hcov
      exact Sat.bind (((hold_callOk h hsp (by omega) hcar hcov ts).checkTimers hE ts).imp
        fun s2 h2 => .buffered h2)
    · exact feedInOrder_sat (s := s) hE h hsp ha hft rfl rfl (not_le.mp hold) (not_lt.mp hah) ts pass

/-! ## Acknowledgements, the FIN and cut bytes -/

/-- Evidence that was recorded in the track, and the candidate that it corroborated. -/
theorem useEvidence_callOk (h : s.Fine F) (hsp : s.stop = none)
    {proved : Track × Option Candidate} {op : Track.Op} (hal : F.allows op s.track)
    (hcr : op.Carries) (hst : op.moves = false) (hp : op.exec s.track = proved)
    (hpr : s.track.Proved proved)
    (hok : F.TrackOk proved.1 ∧ ∀ c, proved.2 = some c → F.CandidateOk c) (ts : Timestamp) :
    CallOk F s (s.useEvidence proved ts) := by
  obtain ⟨track, used⟩ := proved
  have hfn : ({ s with track } : BufferedReassembler).Fine F :=
    ⟨h.reorder, fun hne => absurd hsp hne, hok.1⟩
  have hsm : s.toCore.Same { s.toCore with track } :=
    ⟨rfl, rfl, hpr.next_off, rfl, rfl, rfl⟩
  cases used with
  | none =>
    exact ⟨Path.note hsm, (Core.Changes.exec op hal hcr hst hp).1 rfl, rfl, hfn⟩
  | some c =>
    exact (resync_callOk hfn (hok.2 c rfl) op hal hcr hst hp hsm ts).1

theorem peerAck_sat (hE : s.rules.Timely E) (h : s.Fine F) {ack : Seq}
    (hack : F.Knows s.track (.peerAck ack ts)) : (s.peerAck ack ts).Sat (CallOk F s) E := by
  unfold peerAck
  split_ifs with hsp
  · exact (Steps.refl h).callOk
  · have hsp : s.stop = none := by simpa using hsp
    exact (useEvidence_callOk h hsp (hack.1 _) trivial rfl rfl
      (s.track.proved_recordEvidence _ _ _) (h.track.recordEvidence hack.2 _ _) ts).checkTimers hE ts

theorem finSeen_callOk (h : s.Fine F) {end_ : Seq}
    (hend : F.Knows s.track (.finSeen end_ ts)) : CallOk F s (s.finSeen end_ ts) := by
  unfold finSeen
  split_ifs with hsp
  · exact (Steps.refl h).callOk
  · have hsp : s.stop = none := by simpa using hsp
    exact useEvidence_callOk h hsp (hend.1 _) trivial rfl rfl (s.track.proved_fin _ _ _)
      (h.track.fin hend.2 _ _) ts

/-- One iteration of the loop over cut bytes: the waiting segment goes, or their end is reached. -/
theorem skipMissing_steps (h : s.Fine F) (hend : F.covered end_) (ts : Timestamp) :
    Steps F s (s.skipMissing end_ ts) ∧
      ((s.skipMissing end_ ts).reorder = none ∧ s.reorder ≠ none ∨
        end_ ≤ (s.skipMissing end_ ts).track.next_off) := by
  obtain ⟨off, hoff, hle, hfr⟩ : ∃ off, s.skipMissing end_ ts = (s.skipTo off ts).tryReorder ts ∧
      off ≤ end_ ∧ (off = end_ ∧ (∀ c, s.reorder = some c → end_ < c.off) ∨
        ∃ c, s.reorder = some c ∧ off = c.off) := by
    unfold skipMissing
    cases hr : s.reorder with
    | none => exact ⟨end_, rfl, le_rfl, .inl ⟨rfl, fun c hc => by cases hc⟩⟩
    | some c =>
      refine ⟨min c.off end_, rfl, min_le_right _ _, ?_⟩
      rcases Nat.lt_or_ge end_ c.off with hlt | hge
      · refine .inl ⟨min_eq_right hlt.le, fun c' hc' => ?_⟩
        obtain rfl := some.inj hc'
        exact hlt
      · exact .inr ⟨c, rfl, min_eq_left hge⟩
  have hsk := skipTo_steps h (F.covered_of_le _ _ hle hend) ts
  obtain ⟨htry, hgn⟩ := tryReorder_steps hsk.fine ts
  rw [hoff]
  refine ⟨hsk.toSteps.trans htry, ?_⟩
  rcases hfr with ⟨rfl, hlr⟩ | ⟨c, hc, rfl⟩
  · by_cases hsy : (s.skipTo off ts).tryReorder ts = s.skipTo off ts
    · rw [hsy]
      exact .inr (next_off_le_skipTo _ _ _)
    · -- the waiting segment was behind the stream
      refine .inl ?_
      unfold tryReorder at hsy
      cases hr : (s.skipTo off ts).reorder with
      | none =>
        rw [hr] at hsy
        exact absurd rfl hsy
      | some c =>
        rw [hr] at hsy
        have hle : c.off ≤ (s.skipTo off ts).track.next_off := by
          by_contra hnot
          exact hsy (if_neg hnot)
        have hr' : s.reorder = some c := hr
        exact ⟨hgn c hr hle, by rw [hr']; exact some_ne_none c⟩
  · exact .inl ⟨hgn c hc (next_off_le_skipTo _ _ _), by rw [hc]; exact some_ne_none c⟩

/-- Cut bytes that the stream has reached: two iterations are enough. -/
theorem skipCut_sat (h : s.Fine F) (hend : F.covered end_) (ts : Timestamp) :
    (s.skipCut end_ ts).Sat (Steps F s) E := by
  refine (whileDo_sat (fun t => Steps F s t)
    (fun t => if t.track.next_off < end_ then (if t.reorder = none then 1 else 2) else 0)
    (fun t ht hg => ?_) (fun t ht hg => ?_) 2 s (.refl h) ?_).imp fun t ht => ht.1
  · simp only [Bool.and_eq_true, decide_eq_true_eq] at hg
    split_ifs <;> omega
  · simp only [Bool.and_eq_true, decide_eq_true_eq] at hg
    obtain ⟨hstp, hls⟩ := skipMissing_steps ht.fine hend ts
    refine ⟨ht.trans hstp, ?_⟩
    rcases hls with ⟨hnn, hso⟩ | hrh
    · split_ifs <;> omega
    · rw [if_neg (not_lt.mpr hrh)]
      split_ifs <;> omega
  · split_ifs <;> omega

/-- An unanchored side is anchored first. -/
theorem missingFrom_anchor (hsp : s.stop = none) (hlen : len ≠ 0) :
    s.missingFrom (depth + 1) seq len ts =
      ({ s with track := s.track.anchor seq ts } : BufferedReassembler).missingFrom (depth + 1)
        seq len ts := by
  have hrun : ¬ (s.stop.isSome || len = 0) = true := by simpa [hsp] using hlen
  rw [missingFrom, missingFrom, if_neg hrun, if_neg hrun,
    anchor_of_anchored (anchored_anchor s.track seq ts)]

/-- Cut bytes. The induction is on the nested calls: the candidate is used once. -/
theorem missingFrom_sat (hct : F.Cuts seq len)
    (hpf : ∀ max_ahead t, F.allows (.recordEvidence (seq + len) ts max_ahead) t) (depth : ℕ) :
    ∀ {s : BufferedReassembler}, s.rules.Timely E → F.Places s.rules → s.Fine F →
      (2 ≤ depth ∨ s.track.oow = none ∧ 1 ≤ depth) →
        (s.missingFrom depth seq len ts).Sat (CallOk F s) E := by
  induction depth with
  | zero =>
    omega
  | succ depth ih =>
    intro s0 hE hpl h0 hns
    rw [missingFrom]
    split_ifs with hid
    · exact (Steps.refl h0).callOk
    obtain ⟨hsp, hlen⟩ : s0.stop = none ∧ len ≠ 0 := by simpa using hid
    have har := anchor_steps h0 seq ts
    refine Sat.imp ?_ fun _ h' => har.callOk.trans h'
    -- the rest is about the anchored side
    have ha := anchored_anchor s0.track seq ts
    rw [← oow_anchor s0.track seq ts] at hns
    extract_lets s start end_ next
    have h : s.Fine F := har.fine
    split_ifs with hold hfar
    · exact (Steps.refl h).callOk
    · have hok := h.track.farMissing (hct.asU64 hpl h.track.window ha hfar) ts
        s.rules.max_ahead
      have hkp := s.track.farMissing_keeps (asU64 (s.track.offsetOf seq)) len.toNat ts
        s.rules.max_ahead
      have hcr : len.toNat ≠ 0 := fun hzr => hlen (BitVec.eq_of_toNat_eq hzr)
      generalize hp : s.track.farMissing (asU64 (s.track.offsetOf seq)) len.toNat ts
        s.rules.max_ahead = p at hok hkp
      obtain ⟨track, used⟩ := p
      have hfn : ({ s with track } : BufferedReassembler).Fine F :=
        ⟨h.reorder, fun hne => absurd hsp hne, hok.1⟩
      have hsm : s.toCore.Same { s.toCore with track } := ⟨rfl, rfl, hkp.1, rfl, rfl, rfl⟩
      cases used with
      | none =>
        have hch := (Core.Changes.exec (.farMissing _ _ ts _) (F.plain _ _ rfl) hcr rfl hp).1 rfl
        have h₁ : CallOk F s { s with track } := ⟨Path.note hsm, hch, rfl, hfn⟩
        exact h₁.checkTimers hE ts
      | some c =>
        obtain ⟨hc, hoow⟩ := hok.2 c rfl
        obtain ⟨h₂, -, hno⟩ := resync_callOk hfn hc (.farMissing _ _ ts _) (F.plain _ _ rfl)
          hcr rfl hp hsm ts
        have hrl : (resync { s with track } c ts).rules = s.rules := congrArg Config.rules h₂.config
        refine (ih (hrl ▸ hE) (hrl ▸ hpl) h₂.fine (.inr
          ⟨hno.elim (fun heq => heq.trans hoow) id, ?_⟩)).imp fun s3 h₃ => h₂.trans h₃
        rcases hns with hn | hn
        · omega
        · exact absurd ((hkp.2.2.1 c rfl).symm.trans hn.1) (some_ne_none c)
    · refine Sat.bind ((skipCut_sat h (hct.1 _ h.track.window ha) ts).imp fun s₁ h₁ => ?_)
      exact h₁.callOk.checkTimers hE ts
    · exact (useEvidence_callOk h hsp (hpf _ _) trivial rfl rfl
        (s.track.proved_recordEvidence _ _ _) (h.track.recordEvidence hct.2 _ _) ts).checkTimers hE ts

/-! ## The end of the flow -/

/-- Flushing leaves no waiting segment and no candidate. -/
theorem flushPending_steps (h : s.Fine F) :
    Walks F s s.flushPending ∧ s.flushPending.reorder = none ∧
      s.flushPending.track.oow = none := by
  unfold flushPending
  split_ifs with hsp
  · have hsp : s.stop ≠ none := by simpa [isSome_iff_ne_none] using hsp
    exact ⟨.refl h, (h.stopped hsp).1, (h.stopped hsp).2⟩
  · obtain ⟨h₁, hnn⟩ := releaseReorder_steps h s.track.last_progress
    have hdn : ∀ s2, Walks F (s.releaseReorder s.track.last_progress) s2 →
        Walks F s { s2 with track := s2.track.dropStray } ∧ s2.reorder = none ∧
          s2.track.dropStray.oow = none := by
      intro s2 h₂
      have h₃ : Walks F s2 { s2 with track := s2.track.dropStray } :=
        core_steps h₂.fine
          ⟨rfl, rfl, rfl, rfl, rfl, rfl⟩ (.op F.plain .dropStray rfl trivial rfl rfl)
          h₂.fine.track.dropStray id (.inr rfl)
      exact ⟨(h₁.trans h₂).trans h₃, h₂.reorder.elim (fun heq => heq.trans hnn) id, rfl⟩
    dsimp only
    cases hf : (s.releaseReorder s.track.last_progress).track.evidenceFrontier with
    | none => exact hdn _ (.refl h₁.fine)
    | some frontier =>
      obtain ⟨hfrr, hlt⟩ := evidenceFrontier_eq_some hf
      have hcov : F.covered frontier := hfrr ▸ h₁.fine.track.evidence
      refine hdn _ ((skipTo_steps h₁.fine.confirm hcov _).confirm ?_)
      exact (Nat.zero_lt_of_lt hlt).trans_le (next_off_le_skipTo _ _ _)

/-! ## All calls -/

theorem fine_new : (new config).Fine .any :=
  ⟨fun c hc => absurd hc.symm (some_ne_none c), fun hne => absurd rfl hne, Frame.trackOk_any _⟩

/-- What a call leads to, with the output that the consumer has collected. -/
structure Done (F : Frame) (call : Call) (s s' : BufferedReassembler × StreamChunks) : Prop where
  turn : call.drops = false → Turn F (s.1.toCore, s.2) (s'.1.toCore, s'.2)
  fine : s'.1.Fine F
  config : s'.1.toConfig = s.1.toConfig
  changes : call ≠ .release → s.1.toCore.Changes F.allows s'.1.toCore

theorem CallOk.done (h : CallOk F s s') : Done F call (s, out) (s', out) :=
  ⟨fun _ => .path out h.path, h.fine, h.config, fun _ => h.changes⟩

theorem exec_sat {s : BufferedReassembler × StreamChunks} (hE : s.1.rules.Timely E)
    (hpl : F.Places s.1.rules) (h : s.1.Fine F)
    (hcl : F.Knows s.1.track call) :
    (call.exec s).Sat (Done F call s) E := by
  obtain ⟨s, out⟩ := s
  cases call with
  | segment seq payload ts =>
    refine Sat.bind (Sat.bind ((feed_sat nesting hE hpl h hcl.2
      (.inl (by decide))).imp fun r hr => ?_))
    cases hr with
    | buffered ok => exact ok.done
    | passed ok passed changes fine asked => exact absurd asked Bool.false_ne_true
  | segmentInto seq payload ts =>
    refine Sat.bind ((feed_sat nesting hE hpl h hcl.2 (.inl (by decide))).imp
      fun r hr => ?_)
    cases hr with
    | buffered ok => exact ok.done
    | passed ok passed changes fine asked =>
      exact ⟨fun _ => .pass out _ ok.path passed, fine, passed.config.trans ok.config,
        fun _ => changes⟩
  | setOrigin seq => exact (anchor_steps h seq _).callOk.done
  | peerAck ack ts =>
    exact Sat.bind ((peerAck_sat hE h hcl).imp fun _ h' => h'.done)
  | finSeen end_ ts => exact (finSeen_callOk h hcl).done
  | missing seq len ts =>
    exact Sat.bind ((missingFrom_sat hcl.2 hcl.1 nesting hE hpl h
      (.inl (by decide))).imp fun _ h' => h'.done)
  | drainInto =>
    exact ⟨fun _ => .drain s.toCore out, ⟨h.reorder, h.stopped, h.track⟩, rfl,
      fun _ => .note ⟨rfl, rfl, rfl, rfl, rfl, le_rfl, rfl⟩⟩
  | flushPending => exact (flushPending_steps h).1.callOk.done
  | advanceTime now =>
    exact Sat.bind ((checkTimers_sat hE h now).imp fun _ h' => h'.callOk.done)
  | take =>
    exact ⟨(absurd ·.symm Bool.false_ne_true), ⟨h.reorder, h.stopped, h.track⟩, rfl,
      fun _ => .note ⟨rfl, rfl, rfl, rfl, rfl, le_rfl, rfl⟩⟩
  | release =>
    exact ⟨(absurd ·.symm Bool.false_ne_true), ⟨fun c hc => absurd hc.symm (some_ne_none c),
      fun _ => ⟨rfl, rfl⟩, h.track.dropStray⟩, rfl, fun hne => absurd rfl hne⟩

/-- What holds of the state after every call, as long as the calls meet a condition, holds after a
sequence of them. -/
theorem run_done {I : BufferedReassembler × StreamChunks → Prop}
    {G : Call → BufferedReassembler × StreamChunks → Prop} {config : Config}
    (hpl : F.Places config.rules)
    (hstp : ∀ call s s', G call s → s.1.Fine F → Done F call s s' → I s → I s')
    {calls : List Call} {s : BufferedReassembler × StreamChunks}
    (h : Call.Along (fun call s => F.Knows s.1.track call ∧ G call s) calls s) (hI : I s)
    (hfn : s.1.Fine F) (hcn : s.1.toConfig = config) :
    (Call.run calls s).Sat (fun t => I t ∧ t.1.Fine F ∧ t.1.toConfig = config)
      config.rules.Faults := by
  refine runs_sat (fun call s hcl hs => ?_) h ⟨hI, hfn, hcn⟩
  have hrl : s.1.rules = config.rules := congrArg Config.rules hs.2.2
  refine (exec_sat (hrl ▸ config.rules.timely_faults) (hrl ▸ hpl) hs.2.1 hcl.1).imp fun s' hdn => ?_
  exact ⟨hstp call s s' hcl.2 hs.2.1 hdn hs.1, hdn.fine, hdn.config.trans hs.2.2⟩

/-- Every reachable state is in the invariant. -/
theorem run_fine (calls : List Call) :
    (Call.run calls (new config, .new)).Sat (fun t => t.1.Fine .any) config.rules.Faults := by
  refine (run_done (G := fun _ _ => True) (Frame.places_any _)
    (fun _ _ _ _ _ _ _ => trivial) ?_ trivial (fine_new _) rfl).imp fun t ht => ht.2.1
  exact (Along.of_forall (fun _ _ => trivial) _).imp
    fun call _ _ => ⟨Frame.knows_any _ call, trivial⟩

/-! ## Before the anchor -/

/-- A call that anchors the stream does what it does to a stream anchored there. -/
theorem exec_anchor (hsp : s.stop = none) (h : call.anchorAt = some (seq, ts)) :
    call.exec (s, out) =
      call.exec (({ s with track := s.track.anchor seq ts } : BufferedReassembler), out) := by
  refine Call.exec_congr h (fun payload hpay => ?_) (fun payload hpay => feed_anchor hsp hpay)
    (fun hts => ?_) fun len hlen => missingFrom_anchor hsp hlen
  · have hfd : s.feed nesting seq payload ts false = _ := feed_anchor hsp hpay
    simp only [Reassembler.segment, segment, hfd]
    rfl
  · simp only [Reassembler.setOrigin, setOrigin, hts, anchor_of_anchored (anchored_anchor _ _ _)]

theorem checkTimers_new (now : Timestamp) :
    ((new config).checkTimers now).Sat
      (· = new config) config.rules.Faults := by
  refine Sat.bind ((Duration.mul_sat config.rules.timely_faults).imp fun limit _ => ?_)
  rfl

/-- Before the anchor, the other calls do nothing. -/
theorem exec_new (h : call.anchorAt = none) (hdr : call.drops = false) :
    (call.exec (new config, StreamChunks.new)).Sat
      (· = (new config, .new)) config.rules.Faults :=
  Call.exec_idle h hdr (fun _ _ => rfl) (fun _ _ => rfl) (fun _ _ => rfl)
    (fun _ => checkTimers_new config) (fun _ _ => rfl) rfl rfl (checkTimers_new config)

end BufferedReassembler

end Flowscope
