import Flowscope.Buffered.Calls
import Flowscope.Segment.Calls

/-!
# The fast path and the slow path

A consumer can feed segments with `segment_into` and deliver what passes through itself
(`Call.execFast`), or feed them with `segment` and drain after every call (`Call.execSlow`). The
fast path returns before the timers are looked at, so it does not give up a hole that is due, nor
forget a candidate that is too old, at the time of the segment that it lets through; then the two
paths part (`fast_path_parts`). Where nothing is due whenever a segment comes in order
(`Call.Untimed`), both paths lead to the same state and the same output (`fast_path_agrees`).
-/

namespace Flowscope

open Except StreamChunks Duration

namespace Call

variable {R : Type} [Reassembler R]

/-- A call, where segments pass through when they can. The output is drained after every call, but
not after a segment that passed through. -/
def execFast (call : Call) (s : R × StreamChunks) : Result (R × StreamChunks) :=
  match call with
  | .segment seq payload ts | .segmentInto seq payload ts => do
    match ← Reassembler.segmentInto s.1 seq payload ts with
    | (r, .buffered) => return Reassembler.drainInto r s.2
    | (r, .passthrough skip) => return (r, s.2.pushData (payload.drop skip))
  | call => do
    let s ← call.exec s
    return Reassembler.drainInto s.1 s.2

/-- A call, where every segment is buffered. The output is drained after every call. -/
def execSlow (call : Call) (s : R × StreamChunks) : Result (R × StreamChunks) :=
  match call with
  | .segment seq payload ts | .segmentInto seq payload ts => do
    let r ← Reassembler.segment s.1 seq payload ts
    return Reassembler.drainInto r s.2
  | call => do
    let s ← call.exec s
    return Reassembler.drainInto s.1 s.2

end Call

/-- Nothing is due at `ts` once the stream has reached `end_`: neither a hole that an ACK or the FIN
proves, nor the end of the candidate. -/
def Track.Quiet (t : Track) (rules : StreamRules) (ts : Timestamp) (end_ : ℕ) : Prop :=
  (end_ < t.evidence → ∀ since ∈ t.evidence_since, ts.saturatingSub since < rules.ack_grace) ∧
    ∀ c ∈ t.oow, ts.saturatingSub c.ts ≤ 4 * rules.deadline

instance (t : Track) (rules : StreamRules) (ts : Timestamp) (end_ : ℕ) :
    Decidable (t.Quiet rules ts end_) :=
  inferInstanceAs (Decidable (_ ∧ _))

/-- If a segment of `len` bytes that starts at `start` goes on where the stream is, nothing is due once
the stream has reached its end. -/
def Track.Punctual (t : Track) (rules : StreamRules) (ts : Timestamp) (start : ℤ) (len : ℕ) : Prop :=
  start ≤ t.next_off → t.next_off < start + len → t.Quiet rules ts (start + len).toNat

instance (t : Track) (rules : StreamRules) (ts : Timestamp) (start : ℤ) (len : ℕ) :
    Decidable (t.Punctual rules ts start len) :=
  inferInstanceAs (Decidable (_ → _ → _))

/-- A segment that comes in order finds nothing due. -/
def Call.Untimed {R : Type} (core : R → Core) (call : Call) (s : R × StreamChunks) : Prop :=
  match call with
  | .segment seq payload ts | .segmentInto seq payload ts =>
    let t := (core s.1).track.anchor seq ts
    t.Punctual (core s.1).rules ts (t.offsetOf seq) payload.length
  | _ => True

instance {R : Type} (core : R → Core) (call : Call) (s : R × StreamChunks) :
    Decidable (call.Untimed core s) := by
  cases call with
  | segment seq payload ts | segmentInto seq payload ts =>
    exact inferInstanceAs (Decidable (Track.Punctual _ _ _ _ _))
  | _ => exact isTrue trivial

/-! ## What the two paths share -/

namespace Track

variable {t : Track} {rules : StreamRules} {ts : Timestamp} {end_ : ℕ}

/-- Nothing is due after the stream has advanced. -/
theorem Quiet.advanced {t' : Track} (htr : t' = t.advanceTo end_ ts) (hend : t.next_off < end_)
    (h : t.Quiet rules ts end_) :
    t'.evidenceDue ts rules.ack_grace = none ∧
      t'.expireStray ts (4 * rules.deadline) = t' := by
  subst htr
  constructor
  · rw [advanceTo, if_neg (not_le.mpr hend), Track.evidenceDue]
    by_cases hev : t.evidence ≤ end_
    · rw [if_pos hev]
    · rw [if_neg hev]
      cases hsn : t.evidence_since with
      | none => rfl
      | some since =>
        have := h.1 (not_le.mp hev) since hsn
        exact if_neg fun hc => absurd hc.2 (not_le.mpr this)
  · rw [Track.expireStray, oow_advanceTo]
    cases hc : t.oow with
    | none => rfl
    | some c => exact if_neg (not_lt.mpr (h.2 c hc))

end Track

/-- Draining a single push. -/
theorem StreamChunks.append_pushData (out : StreamChunks) (data : List UInt8) :
    (out.append (new.pushData data)).1 = out.pushData data := by
  obtain ⟨bytes, gaps, stop, marked⟩ := out
  unfold append
  by_cases h : bytes = [] ∧ gaps = []
  · obtain ⟨rfl, rfl⟩ := h
    rfl
  · simp [new, pushData]

namespace Core

structure Drained (c : Core) : Prop where
  ready : c.ready = .new
  below : c.above_threshold = false

theorem drained_drainInto (c : Core) (out : StreamChunks) : (c.drainInto out).1.Drained :=
  ⟨rfl, rfl⟩

/-- Bytes that are buffered and drained leave what bytes that pass through leave. -/
theorem drainInto_pushData {c : Core} (h : c.Drained) (hsp : c.stop = none) (data : List UInt8)
    (out : StreamChunks) :
    ({ c with ready := c.ready.pushData data }.updateWatermark 0).drainInto out =
      (c.notePassthrough data.length, out.pushData data) := by
  obtain ⟨config, ready, track, gaps, gap_bytes, acked, dropped, old, oversize, high, above,
    crossings, stop⟩ := c
  obtain rfl : ready = .new := h.ready
  obtain rfl : above = false := h.below
  obtain rfl : stop = none := hsp
  refine Prod.ext ?_ (out.append_pushData data)
  simp [drainInto, updateWatermark, notePassthrough, trigger, append_snd]

end Core

/-- A segment is treated alike on both paths, or it passes through on the fast one. Then, if it finds
nothing due, it is delivered by the drain on the slow one. -/
def Call.Agrees {R : Type} [Reassembler R] (core : R → Core) (s : R) (seq : Seq)
    (payload : List UInt8) (ts : Timestamp) : Prop :=
  (∃ x : Result R, Reassembler.segmentInto s seq payload ts =
      (x >>= fun r => .ok (r, .buffered)) ∧ Reassembler.segment s seq payload ts = x) ∨
    ∃ r r' skip, Reassembler.segmentInto s seq payload ts = .ok (r, .passthrough skip) ∧
      (((core s).track.anchor seq ts).Punctual (core s).rules ts
          (((core s).track.anchor seq ts).offsetOf seq) payload.length →
        Reassembler.segment s seq payload ts = .ok r' ∧
          ∀ out, Reassembler.drainInto r' out = (r, out.pushData (payload.drop skip)))

/-- Two answers to a segment: they are the same, or it passes through in the first. Then, under the
condition, the drain after the second one delivers it. -/
def Call.Alike {R : Type} [Reassembler R] (quiet : Prop) (payload : List UInt8)
    (fast slow : Result (R × SegmentOutcome)) : Prop :=
  fast = slow ∨ ∃ r r' skip, fast = .ok (r, .passthrough skip) ∧
    (quiet → slow = .ok (r', .buffered) ∧
        ∀ out, Reassembler.drainInto r' out = (r, out.pushData (payload.drop skip)))

variable {R : Type} {core : R → Core}

theorem Call.Alike.agrees [Reassembler R] {s : R} {seq : Seq}
    {payload : List UInt8} {ts : Timestamp} {slow : Result (R × SegmentOutcome)}
    (h : Call.Alike (((core s).track.anchor seq ts).Punctual (core s).rules ts
      (((core s).track.anchor seq ts).offsetOf seq) payload.length) payload
      (Reassembler.segmentInto s seq payload ts) slow)
    (hsl : Reassembler.segment s seq payload ts = slow >>= fun r => .ok r.1)
    (hkt : slow.Sat (fun r => r.2 = .buffered) fun _ => True) :
    Call.Agrees core s seq payload ts := by
  rcases h with heq | ⟨r, r', skip, hfs, hqt⟩
  · refine .inl ⟨_, ?_, hsl⟩
    rw [heq]
    cases slow with
    | ok r =>
      obtain ⟨r, o⟩ := r
      obtain rfl : o = .buffered := hkt
      rfl
    | error e => rfl
  · refine .inr ⟨r, r', skip, hfs, fun h => ⟨?_, (hqt h).2⟩⟩
    rw [hsl, (hqt h).1]
    rfl

/-- One call on the two paths. -/
theorem Call.execFast_eq_execSlow [Reassembler R]
    {s : R × StreamChunks} (h : ∀ seq payload ts, Call.Agrees core s.1 seq payload ts) {call : Call}
    (hud : call.Untimed core s) : call.execFast s = call.execSlow s := by
  have hsg : ∀ seq payload ts, (Call.segment seq payload ts).Untimed core s →
      (Call.segment seq payload ts).execFast s = (Call.segment seq payload ts).execSlow s := by
    intro seq payload ts hun
    simp only [execFast, execSlow]
    rcases h seq payload ts with ⟨x, hfs, hsl⟩ | ⟨r, r', skip, hfs, hsl⟩
    · rw [hfs, hsl]
      cases x with
      | ok r => rfl
      | error e => rfl
    · obtain ⟨hsl, hdrn⟩ := hsl hun
      rw [hfs, hsl, ok_bind, ok_bind, hdrn]
  cases call with
  | segment seq payload ts => exact hsg seq payload ts hud
  | segmentInto seq payload ts => exact hsg seq payload ts hud
  | setOrigin | peerAck | finSeen | missing | drainInto | flushPending | advanceTime | take |
    release => rfl

/-- The call that the slow path makes. -/
def Call.slow : Call → Call
  | .segmentInto seq payload ts => .segment seq payload ts
  | call => call

theorem Call.execSlow_eq [Reassembler R] (call : Call) (s : R × StreamChunks) :
    call.execSlow s =
      (call.slow.exec s >>= fun s => .ok (Reassembler.drainInto s.1 s.2)) := by
  cases call with
  | segment seq payload ts =>
    simp only [execSlow, slow, exec]
    cases Reassembler.segment s.1 seq payload ts <;> rfl
  | segmentInto seq payload ts =>
    simp only [execSlow, slow, exec]
    cases Reassembler.segment s.1 seq payload ts <;> rfl
  | setOrigin | peerAck | finSeen | missing | drainInto | flushPending | advanceTime | take |
    release => rfl

/-- Two runs, where every call agrees and leaves a state in which every call agrees. -/
theorem Call.runs_fast_eq_slow [Reassembler R] {I : R → Prop}
    (hag : ∀ s, I s → ∀ seq payload ts, Call.Agrees core s seq payload ts)
    (hkp : ∀ (call : Call) (s : R × StreamChunks), I s.1 → (call.slow.exec s).Sat
      (fun t => I (Reassembler.drainInto t.1 t.2).1) fun _ => True)
    {calls : List Call} {s : R × StreamChunks} (hs : I s.1)
    (h : Except.Along Call.execFast (Call.Untimed core) calls s) :
    runs Call.execFast calls s = runs Call.execSlow calls s := by
  refine Except.Sim.eq ((runs_sim (R := fun a b => a = b ∧ I a.1) ?_ h ⟨rfl, hs⟩).imp
    fun a b hab => hab.1)
  rintro call s t hud ⟨rfl, hI⟩
  rw [Call.execFast_eq_execSlow (hag s.1 hI) hud, Call.execSlow_eq]
  exact Except.Sat.sim (Except.Sat.bind ((hkp call s hI).imp
    fun t ht => ⟨rfl, ht⟩))

/-! ## The segment-buffer reassembler -/

namespace SegmentBufferReassembler

variable {s : SegmentBufferReassembler}

/-- The timers find nothing to do after the stream has advanced. -/
theorem checkTimers_quiet (hooo : s.ooo = none) {t : Track} {end_ : ℕ} {now : Timestamp}
    (htr : s.track = t.advanceTo end_ now) (hend : t.next_off < end_)
    (hqt : t.Quiet s.rules now end_)
    (hlimit : 4 * s.rules.deadline ≤ max) : s.checkTimers now = .ok s := by
  obtain ⟨hdue, hsy⟩ := hqt.advanced htr hend
  have hec : s.checkEvidence now = .ok s := by rw [checkEvidence, hdue]; rfl
  have hmul : s.rules.deadline.mul 4 = .ok (4 * s.rules.deadline) := if_pos hlimit
  have hhl : s.holeExpired now (4 * s.rules.deadline) = false := by rw [holeExpired, hooo]
  unfold checkTimers
  split_ifs with hsp
  · rfl
  · rw [hec, ok_bind, hmul, ok_bind, hhl]
    dsimp only
    rw [if_neg Bool.false_ne_true, hsy]
    rfl

/-- Bytes that fit are made ready. -/
def pushed (s : SegmentBufferReassembler) (bytes : List UInt8) : SegmentBufferReassembler :=
  { s with ready := s.ready.pushData bytes }.updateWatermark

theorem appendReady_fits (h : s.toCore.Drained) (hsp : s.stop = none) {bytes : List UInt8}
    (hne : bytes ≠ []) (hft : s.max_buffer.all (bytes.length ≤ ·) = true) :
    s.appendReady bytes = s.pushed bytes := by
  have hlen : s.ready.len = 0 := by rw [h.ready]; rfl
  unfold appendReady
  rw [if_neg (by simp [hsp, hne])]
  cases hmax : s.max_buffer with
  | none => rfl
  | some cap =>
    have hle : bytes.length ≤ cap := by simpa [hmax] using hft
    exact if_pos (by omega)

/-- The drain delivers them. -/
theorem drainInto_pushed (hooo : s.ooo = none) (h : s.toCore.Drained) (hsp : s.stop = none)
    (bytes : List UInt8) (out : StreamChunks) :
    (s.pushed bytes).drainInto out =
      ({ s with toCore := s.toCore.notePassthrough bytes.length }, out.pushData bytes) := by
  have hcr : (s.pushed bytes).toCore =
      { s.toCore with ready := s.ready.pushData bytes }.updateWatermark 0 := by
    rw [pushed, updateWatermark, bufferedOooBytes, hooo]
  rw [drainInto, hcr, Core.drainInto_pushData h hsp bytes out]
  rfl

/-- The stream has moved past an in-order segment, whose bytes are not delivered yet. -/
def moved (s : SegmentBufferReassembler) (start : ℤ) (payload : List UInt8) (ts : Timestamp) :
    SegmentBufferReassembler :=
  { s with
    retransmits := if start < s.track.next_off then s.retransmits + 1 else s.retransmits
    track := s.track.advanceTo
      (s.track.next_off + (payload.drop (s.track.next_off - start).toNat).length) ts }

variable {start : ℤ}

/-- An in-order segment, when nothing is held. -/
theorem feedNew_of_inOrder (hooo : s.ooo = none) (hle : start ≤ s.track.next_off)
    (payload : List UInt8) (ts : Timestamp) (pass : Bool) :
    s.feedNew start payload ts pass =
      if pass && s.ready.isEmpty && s.max_buffer.all
          ((payload.drop (s.track.next_off - start).toNat).length ≤ ·) then
        .ok ({ s.moved start payload ts with
          toCore := (s.moved start payload ts).toCore.notePassthrough
            (payload.drop (s.track.next_off - start).toNat).length },
          .passthrough (s.track.next_off - start).toNat)
      else do
        let t ← ((s.moved start payload ts).appendReady
          (payload.drop (s.track.next_off - start).toNat)).checkTimers ts
        return (t, .buffered) := by
  have hmax : (max start s.track.next_off).toNat = s.track.next_off := by omega
  unfold feedNew moved
  by_cases hlt : start < s.track.next_off
  · simp only [hlt, hooo, hmax]
    rfl
  · simp only [hlt, if_false, hooo, hmax]
    rfl

/-- Any other segment does not pass through. -/
theorem feedNew_of_hole (h : ¬(s.ooo = none ∧ start ≤ s.track.next_off))
    (payload : List UInt8) (ts : Timestamp) :
    s.feedNew start payload ts true = s.feedNew start payload ts false := by
  have hmax : (max start s.track.next_off).toNat = s.track.next_off ↔ start ≤ s.track.next_off := by
    omega
  have hno : ¬(s.ooo.isNone = true ∧ (max start s.track.next_off).toNat = s.track.next_off) := by
    rwa [Option.isNone_iff_eq_none, hmax]
  unfold feedNew
  by_cases hlt : start < s.track.next_off
  · simp only [hlt, if_true, if_neg hno]
  · simp only [hlt, if_false, if_neg hno]

/-- A segment that starts in the window. -/
theorem feedNew_fast (h : s.toCore.Drained) (hsp : s.stop = none)
    (hlimit : 4 * s.rules.deadline ≤ max) {payload : List UInt8}
    (hend : s.track.next_off < start + payload.length) (ts : Timestamp) :
    Call.Alike (s.track.Punctual s.rules ts start payload.length) payload
      (s.feedNew start payload ts true) (s.feedNew start payload ts false) := by
  by_cases hin : s.ooo = none ∧ start ≤ s.track.next_off
  swap
  · exact .inl (feedNew_of_hole hin payload ts)
  obtain ⟨hooo, hle⟩ := hin
  rw [feedNew_of_inOrder hooo hle, feedNew_of_inOrder hooo hle, Bool.false_and, Bool.false_and,
    if_neg Bool.false_ne_true]
  split_ifs with hps
  swap
  · exact .inl rfl
  simp only [Bool.and_eq_true] at hps
  have hlen : 0 < (payload.drop (s.track.next_off - start).toNat).length := by
    rw [List.length_drop]
    omega
  have hreach : s.track.next_off + (payload.drop (s.track.next_off - start).toNat).length =
      (start + payload.length).toNat := by
    rw [List.length_drop]
    omega
  have hmv : (s.moved start payload ts).toCore.Drained := ⟨h.ready, h.below⟩
  refine .inr ⟨_, (s.moved start payload ts).pushed (payload.drop (s.track.next_off - start).toNat),
    _, rfl, fun hqt => ?_⟩
  rw [appendReady_fits hmv hsp (List.ne_nil_of_length_pos hlen) hps.2,
    checkTimers_quiet (s := (s.moved start payload ts).pushed _) hooo rfl
      (Nat.lt_add_of_pos_right hlen) (hreach ▸ hqt hle hend) hlimit]
  exact ⟨rfl, drainInto_pushed (s := s.moved start payload ts) hooo hmv hsp _⟩

theorem feedNew_false (s : SegmentBufferReassembler) (start : ℤ) (payload : List UInt8)
    (ts : Timestamp) :
    (s.feedNew start payload ts false).Sat (fun r => r.2 = .buffered) fun _ => True := by
  unfold feedNew
  dsimp only
  rw [Bool.false_and, Bool.false_and, if_neg Bool.false_ne_true]
  have hls : ∀ x : Result SegmentBufferReassembler,
      (x >>= fun t => pure (t, SegmentOutcome.buffered)).Sat (fun r => r.2 = .buffered)
        fun _ => True :=
    sat_bind_of_forall fun t => rfl
  split_ifs
  · exact hls _
  · exact sat_bind_of_forall (fun t => hls _) _
  · exact hls _
  · exact sat_bind_of_forall (fun t => hls _) _

/-- What is not asked to pass through does not. -/
theorem feed_false (depth : ℕ) (s : SegmentBufferReassembler) (seq : Seq) (payload : List UInt8)
    (ts : Timestamp) :
    (s.feed depth seq payload ts false).Sat (fun r => r.2 = .buffered) fun _ => True := by
  induction depth generalizing s with
  | zero => trivial
  | succ depth ih =>
    unfold feed
    dsimp only
    split_ifs
    · rfl
    · split
      · exact sat_bind_of_forall (fun t => ih t) _
      · rfl
    · generalize Core.noteOld _ _ _ = old
      refine sat_bind_of_forall (fun t => ?_) _
      rfl
    · exact feedNew_false _ _ _ _

section

variable (h : s.toCore.Drained) (hlimit : 4 * s.rules.deadline ≤ Duration.max)
include h hlimit

/-- A segment on both paths. -/
theorem feed_fast (depth : ℕ) (seq : Seq) (payload : List UInt8) (ts : Timestamp) :
    Call.Alike ((s.track.anchor seq ts).Punctual s.rules ts ((s.track.anchor seq ts).offsetOf seq)
      payload.length) payload (s.feed depth seq payload ts true) (s.feed depth seq payload ts false) := by
  cases depth with
  | zero => exact .inl rfl
  | succ depth =>
    rw [feed, feed]
    split_ifs with hid
    · exact .inl rfl
    obtain ⟨hsp, hpay⟩ : s.stop = none ∧ payload ≠ [] := by simpa using hid
    extract_lets t start end_ next max_ahead
    have hdr : t.toCore.Drained := ⟨h.ready, h.below⟩
    split_ifs with hfar hold
    · exact .inl rfl
    · exact .inl rfl
    · exact feedNew_fast hdr hsp hlimit (not_le.mp hold) ts

theorem agrees (seq : Seq)
    (payload : List UInt8) (ts : Timestamp) : Call.Agrees toCore s seq payload ts :=
  (feed_fast h hlimit nesting seq payload ts).agrees rfl (feed_false nesting s seq payload ts)

end

/-- Both paths lead to the same state and output. -/
theorem runs_fast_eq_slow (config : Config) (max_ooo_buffer : ℕ) (policy : TcpOverlapPolicy)
    (hlimit : 4 * config.rules.deadline ≤ max) (calls : List Call)
    (h : Except.Along Call.execFast (Call.Untimed toCore) calls
      (new config max_ooo_buffer policy, .new)) :
    runs Call.execFast calls (new config max_ooo_buffer policy, StreamChunks.new) =
      runs Call.execSlow calls (new config max_ooo_buffer policy, .new) := by
  refine Call.runs_fast_eq_slow (I := fun s => s.toCore.Drained ∧ s.toConfig = config ∧ s.Fine .any)
    (fun s hs => ?_) (fun call s hs => ?_) ⟨⟨rfl, rfl⟩, rfl, fine_new _ _ _⟩ h
  · exact agrees hs.1 (by rw [hs.2.1]; exact hlimit)
  · refine (exec_sat Frame.refeeds_any (.inr trivial) (Frame.places_any _) (.inr trivial) hs.2.2
      (Frame.knows_any _ call.slow)).imp fun t ht => ?_
    exact ⟨t.1.toCore.drained_drainInto t.2, ht.settings.1.trans hs.2.1,
      ⟨ht.fine.held.of_eq rfl rfl id, ht.fine.track⟩⟩

end SegmentBufferReassembler

/-! ## The buffered reassembler -/

namespace BufferedReassembler

variable {s : BufferedReassembler}

/-- The timers find nothing to do after the stream has advanced. -/
theorem checkTimers_quiet (hrr : s.reorder = none) {t : Track} {end_ : ℕ} {now : Timestamp}
    (htr : s.track = t.advanceTo end_ now) (hend : t.next_off < end_)
    (hqt : t.Quiet s.rules now end_)
    (hlimit : 4 * s.rules.deadline ≤ max) : s.checkTimers now = .ok s := by
  obtain ⟨hdue, hsy⟩ := hqt.advanced htr hend
  have hec : s.checkEvidence now = s := by rw [checkEvidence, hdue]
  have hmul : s.rules.deadline.mul 4 = .ok (4 * s.rules.deadline) := if_pos hlimit
  have hhl : s.holeExpired now = false := by rw [holeExpired, hrr]; rfl
  unfold checkTimers
  split_ifs with hsp
  · rfl
  · dsimp only
    rw [hec, hhl, if_neg Bool.false_ne_true, hmul, ok_bind, hsy]
    rfl

/-- Bytes that fit are made ready. -/
def pushed (s : BufferedReassembler) (bytes : List UInt8) : BufferedReassembler :=
  { s with ready := s.ready.pushData bytes }.updateWatermark

theorem appendWithCap_fits (h : s.toCore.Drained) (hsp : s.stop = none) {bytes : List UInt8}
    (hne : bytes ≠ []) (hft : s.max_buffer.all (bytes.length ≤ ·) = true) :
    s.appendWithCap bytes = s.pushed bytes := by
  have hlen : s.ready.len = 0 := by rw [h.ready]; rfl
  unfold appendWithCap
  rw [if_neg (by simp [hsp, hne])]
  cases hmax : s.max_buffer with
  | none => rfl
  | some cap =>
    have hle : bytes.length ≤ cap := by simpa [hmax] using hft
    exact if_pos (by omega)

/-- The drain delivers them. -/
theorem drainInto_pushed (h : s.toCore.Drained) (hsp : s.stop = none) (bytes : List UInt8)
    (out : StreamChunks) :
    (s.pushed bytes).drainInto out =
      ({ s with toCore := s.toCore.notePassthrough bytes.length }, out.pushData bytes) := by
  have hcr := Core.drainInto_pushData h hsp bytes out
  rw [drainInto, pushed, updateWatermark, hcr]

theorem tryReorder_of_none (h : s.reorder = none) (ts : Timestamp) : s.tryReorder ts = s := by
  rw [tryReorder, h]

/-- The stream has moved past an in-order segment, whose bytes are not delivered yet. -/
def moved (s : BufferedReassembler) (start end_ : ℤ) (ts : Timestamp) : BufferedReassembler :=
  { s with
    retransmits := if start < s.track.next_off then s.retransmits + 1 else s.retransmits
    track := s.track.advanceTo end_.toNat ts }

theorem feedInOrder_eq (s : BufferedReassembler) (start end_ : ℤ) (payload : List UInt8)
    (ts : Timestamp) (pass : Bool) :
    s.feedInOrder start end_ payload ts pass =
      if pass && s.ready.isEmpty && s.reorder.isNone &&
          s.max_buffer.all (payload.length - (s.track.next_off - start).toNat ≤ ·) then
        .ok ({ s.moved start end_ ts with
          toCore := (s.moved start end_ ts).toCore.notePassthrough
            (payload.length - (s.track.next_off - start).toNat) },
          .passthrough (s.track.next_off - start).toNat)
      else do
        let t ← (((s.moved start end_ ts).appendWithCap
          (payload.drop (s.track.next_off - start).toNat)).tryReorder ts).checkTimers ts
        return (t, .buffered) := by
  unfold feedInOrder moved
  by_cases hlt : start < s.track.next_off
  · simp only [hlt]
    rfl
  · simp only [hlt]
    rfl

theorem feedInOrder_fast (h : s.toCore.Drained) (hsp : s.stop = none)
    (hlimit : 4 * s.rules.deadline ≤ max) {start : ℤ} {payload : List UInt8}
    (hle : start ≤ s.track.next_off) (hend : s.track.next_off < start + payload.length)
    (ts : Timestamp) :
    Call.Alike (s.track.Punctual s.rules ts start payload.length) payload
      (s.feedInOrder start (start + payload.length) payload ts true)
      (s.feedInOrder start (start + payload.length) payload ts false) := by
  obtain ⟨data, hdt⟩ : ∃ data, data = payload.drop (s.track.next_off - start).toNat := ⟨_, rfl⟩
  have hsz : payload.length - (s.track.next_off - start).toNat = data.length := by
    rw [hdt, List.length_drop]
  have hmv : (s.moved start (start + payload.length) ts).toCore.Drained := ⟨h.ready, h.below⟩
  rw [feedInOrder_eq, feedInOrder_eq, Bool.false_and, Bool.false_and, Bool.false_and,
    if_neg Bool.false_ne_true, hsz, ← hdt]
  split_ifs with hps
  swap
  · exact .inl rfl
  simp only [Bool.and_eq_true] at hps
  have hrr : s.reorder = none := Option.isNone_iff_eq_none.mp hps.1.2
  refine .inr ⟨_, (s.moved start (start + payload.length) ts).pushed data, _, rfl, fun hqt => ?_⟩
  rw [appendWithCap_fits hmv hsp (List.ne_nil_of_length_pos (by omega)) hps.2,
    tryReorder_of_none (s := (s.moved start (start + payload.length) ts).pushed data) hrr,
    checkTimers_quiet (s := (s.moved start (start + payload.length) ts).pushed data) hrr rfl
      (by omega) (hqt hle hend) hlimit, ← hdt]
  exact ⟨rfl, drainInto_pushed hmv hsp data⟩

/-- What is not asked to pass through does not. -/
theorem feed_false (depth : ℕ) (s : BufferedReassembler) (seq : Seq) (payload : List UInt8)
    (ts : Timestamp) :
    (s.feed depth seq payload ts false).Sat (fun r => r.2 = .buffered) fun _ => True := by
  have hls : ∀ x : Result BufferedReassembler,
      (x >>= fun t => pure (t, SegmentOutcome.buffered)).Sat (fun r => r.2 = .buffered)
        fun _ => True :=
    sat_bind_of_forall fun t => rfl
  induction depth generalizing s with
  | zero => trivial
  | succ depth ih =>
    unfold feed
    dsimp only
    split_ifs
    · rfl
    · split
      · exact ih _
      · rfl
    · exact hls _
    · exact ih _
    · exact hls _
    · exact hls _

section

variable (h : s.toCore.Drained) (hlimit : 4 * s.rules.deadline ≤ Duration.max)
include h hlimit

/-- A segment on both paths. -/
theorem feed_fast (depth : ℕ) (seq : Seq) (payload : List UInt8) (ts : Timestamp) :
    Call.Alike ((s.track.anchor seq ts).Punctual s.rules ts ((s.track.anchor seq ts).offsetOf seq)
      payload.length) payload (s.feed depth seq payload ts true) (s.feed depth seq payload ts false) := by
  cases depth with
  | zero => exact .inl rfl
  | succ depth =>
    rw [feed, feed]
    split_ifs with hid
    · exact .inl rfl
    obtain ⟨hpay, hsp⟩ : payload ≠ [] ∧ s.stop = none := by simpa using hid
    extract_lets t start end_ next
    have hdr : t.toCore.Drained := ⟨h.ready, h.below⟩
    split_ifs with hfar hold hhl
    · exact .inl rfl
    · exact .inl rfl
    · exact .inl rfl
    · exact .inl rfl
    · exact feedInOrder_fast hdr hsp hlimit (not_lt.mp hhl) (not_le.mp hold) ts

theorem agrees (seq : Seq)
    (payload : List UInt8) (ts : Timestamp) : Call.Agrees toCore s seq payload ts :=
  (feed_fast h hlimit nesting seq payload ts).agrees rfl (feed_false nesting s seq payload ts)

end

/-- Both paths lead to the same state and output. -/
theorem runs_fast_eq_slow (config : Config) (hlimit : 4 * config.rules.deadline ≤ max)
    (calls : List Call)
    (h : Except.Along Call.execFast (Call.Untimed toCore) calls (new config, .new)) :
    runs Call.execFast calls (new config, StreamChunks.new) =
      runs Call.execSlow calls (new config, .new) := by
  refine Call.runs_fast_eq_slow (I := fun s => s.toCore.Drained ∧ s.toConfig = config ∧ s.Fine .any)
    (fun s hs => ?_) (fun call s hs => ?_) ⟨⟨rfl, rfl⟩, rfl, fine_new _⟩ h
  · exact agrees hs.1 (by rw [hs.2.1]; exact hlimit)
  · refine (exec_sat (.inr trivial) (Frame.places_any _) hs.2.2
      (Frame.knows_any _ call.slow)).imp fun t ht => ?_
    exact ⟨t.1.toCore.drained_drainInto t.2, ht.config.trans hs.2.1,
      ⟨ht.fine.reorder, ht.fine.stopped, ht.fine.track⟩⟩

end BufferedReassembler

/-- The fast path agrees with the slow path, for both reassemblers, in every run in which a segment
that comes in order finds nothing due. -/
theorem fast_path_agrees (config : Config) (hlimit : 4 * config.rules.deadline ≤ Duration.max)
    (max_ooo_buffer : ℕ) (policy : TcpOverlapPolicy) (calls : List Call)
    (hsegment : Except.Along Call.execFast (Call.Untimed SegmentBufferReassembler.toCore) calls
      (SegmentBufferReassembler.new config max_ooo_buffer policy, .new))
    (hbuffered : Except.Along Call.execFast (Call.Untimed BufferedReassembler.toCore) calls
      (BufferedReassembler.new config, .new)) :
    Except.runs Call.execFast calls
        (SegmentBufferReassembler.new config max_ooo_buffer policy, StreamChunks.new) =
      Except.runs Call.execSlow calls
        (SegmentBufferReassembler.new config max_ooo_buffer policy, .new) ∧
    Except.runs Call.execFast calls (BufferedReassembler.new config, StreamChunks.new) =
      Except.runs Call.execSlow calls (BufferedReassembler.new config, .new) :=
  ⟨SegmentBufferReassembler.runs_fast_eq_slow config max_ooo_buffer policy hlimit calls hsegment,
    BufferedReassembler.runs_fast_eq_slow config hlimit calls hbuffered⟩

/-- A segment passes through, one waits behind a hole, and one fills the hole in part. -/
def punctual : List Call :=
  [.setOrigin 0, .segment 0 [1, 2] Timestamp.zero, .peerAck 9 Timestamp.zero,
    .segment 4 [5, 6] Timestamp.zero, .segment 1 [2, 3] Timestamp.zero, .flushPending]

theorem fast_path_agrees_punctual :
    Except.runs Call.execFast punctual
        (SegmentBufferReassembler.new Config.new 1000 .last, StreamChunks.new) =
      Except.runs Call.execSlow punctual
        (SegmentBufferReassembler.new Config.new 1000 .last, .new) ∧
    Except.runs Call.execFast punctual (BufferedReassembler.new Config.new, StreamChunks.new) =
      Except.runs Call.execSlow punctual (BufferedReassembler.new Config.new, .new) :=
  fast_path_agrees Config.new (by decide) 1000 .last punctual (by decide +kernel)
    (by decide +kernel)

/-- An ACK for ten bytes, and after the grace period a segment with the first of them, and one with
the second. -/
def belated : List Call :=
  [.setOrigin 0, .peerAck 11 Timestamp.zero, .segment 0 [1] ⟨1000, 0⟩, .segment 1 [2] ⟨1000, 0⟩]

/-- The slow path gives up the acknowledged hole with the first segment, and drops the second one.
The fast path delivers both. -/
theorem fast_path_parts :
    (Except.runs Call.execFast belated
        (SegmentBufferReassembler.new Config.new 1000 .first, .new)).map (fun s => s.2.iter) =
      .ok [.data [1, 2]] ∧
    (Except.runs Call.execSlow belated
        (SegmentBufferReassembler.new Config.new 1000 .first, .new)).map (fun s => s.2.iter) =
      .ok [.data [1], .gap 9] ∧
    (Except.runs Call.execFast belated (BufferedReassembler.new Config.new, .new)).map
        (fun s => s.2.iter) = .ok [.data [1, 2]] ∧
    (Except.runs Call.execSlow belated (BufferedReassembler.new Config.new, .new)).map
        (fun s => s.2.iter) = .ok [.data [1], .gap 9] := by
  decide +kernel

end Flowscope
