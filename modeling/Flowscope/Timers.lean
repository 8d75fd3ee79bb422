import Flowscope.Buffered.Changes
import Flowscope.Segment.Changes

/-!
# Timers

Two questions about time. Does the arithmetic of the timers panic? Four times the deadline is
computed on every call, and overflows where a quarter of `Duration.max` is exceeded
(`duration_overflows`); below that no call panics (`timers_run`).

When does the grace period of a proven hole start? `evidence_since` is to be the time of the
operation with which the evidence last went past the stream position. Every operation on the stream
position keeps it so, except a FIN at the stream position while more is proven: the evidence is
taken back to the stream position, and the time stays. The next FIN or ACK then finds a grace period
that has been running for longer than its evidence (`fin_leaves_clock`).
-/

namespace Flowscope

open SegmentBufferReassembler Track BufferedReassembler Call Config Duration

/-! ## The deadline -/

def patient : Config := { Config.new with rules.deadline := Duration.max }

/-- The first segment of a stream panics. -/
theorem duration_overflows :
    patient.rules.deadline ≤ Duration.max ∧
      (SegmentBufferReassembler.new patient 1000 .first).segment 0 [7] .zero =
        .error .durationOverflow ∧
      (BufferedReassembler.new patient).segment 0 [7] .zero = .error .durationOverflow :=
  ⟨le_rfl, rfl, rfl⟩

/-- A run that ends in one of the accepted faults only: no duration overflows, and there is no fault
at all in a window that is not negative. -/
theorem StreamRules.no_fault {α : Type} {r : StreamRules} (h : 4 * r.deadline ≤ max)
    {x : Result α} {P : α → Prop} (hx : x.Sat P r.Faults) :
    x ≠ .error .durationOverflow ∧ (r.max_ahead < 2^63 → ∃ a, x = .ok a) := by
  constructor
  · intro herr
    have hov : max < 4 * r.deadline := hx.of_error herr
    exact absurd h (not_le.mpr hov)
  · intro hah
    obtain ⟨a, ha, -⟩ := (hx.mono (fun _ ha => ha) fun e he => by
      cases e with
      | durationOverflow => exact absurd he (not_lt.mpr h)
      | recursion => exact absurd he (not_le.mpr hah)
      | divergence => exact he
      | expect => exact he).exists_ok
    exact ⟨a, ha⟩

/-- No call of a built-in reassembler overflows a duration, in any run and at any time, if four
deadlines are representable. Every call returns then, if `max_ahead` is not negative as an `i64`. -/
theorem timers_run (config : Config) (h : 4 * config.rules.deadline ≤ Duration.max)
    (max_ooo_buffer : ℕ) (policy : TcpOverlapPolicy) (calls : List Call) :
    (Call.run calls (SegmentBufferReassembler.new config max_ooo_buffer policy, .new) ≠
        .error .durationOverflow ∧
      Call.run calls (BufferedReassembler.new config, .new) ≠ .error .durationOverflow) ∧
    (config.rules.max_ahead < 2^63 →
      (∃ s, Call.run calls (SegmentBufferReassembler.new config max_ooo_buffer policy, .new) =
        .ok s) ∧
      ∃ s, Call.run calls (BufferedReassembler.new config, .new) = .ok s) := by
  obtain ⟨hsg, hsg'⟩ := StreamRules.no_fault h
    (run_fine config max_ooo_buffer policy calls)
  obtain ⟨hbd, hbd'⟩ := StreamRules.no_fault h
    (run_fine config calls)
  exact ⟨⟨hsg, hbd⟩, fun hah => ⟨hsg' hah, hbd' hah⟩⟩

/-- A segment behind a hole, an ACK for the hole, cut bytes, and an hour that passes. -/
def hourLong : List Call :=
  [.setOrigin 0, .segment 8 [1, 2] .zero, .peerAck 5 ⟨1, 0⟩, .missing 0 3 ⟨2, 0⟩,
    .advanceTime ⟨3600, 0⟩]

theorem timers_run_hourLong :
    4 * Config.new.rules.deadline ≤ Duration.max ∧
      Call.run hourLong (SegmentBufferReassembler.new Config.new 1000 .first, .new) ≠
        .error .durationOverflow := by
  have h : 4 * new.rules.deadline ≤ max := by decide
  exact ⟨h, (timers_run new h 1000 .first hourLong).1.1⟩

/-! ## The grace period -/

namespace Track

namespace Op

/-- When an operation is made, if it is told. -/
def time : Op → Option Timestamp
  | .anchor _ ts => some ts
  | .advanceTo _ ts => some ts
  | .farAhead _ _ ts _ => some ts
  | .farMissing _ _ ts _ => some ts
  | .recordEvidence _ ts _ => some ts
  | .fin _ ts _ => some ts
  | .expireStray now _ => some now
  | .openHole ts => some ts
  | .recordSkip _ _ => none
  | .dropStray => none
  | .countOld => none

/-- When the period began in which the evidence is past the stream position: with this operation, if
it was not past it before. -/
def period (op : Op) (t : Track) (since : Option Timestamp) : Option Timestamp :=
  if (op.exec t).1.evidence ≤ (op.exec t).1.next_off then none
  else if t.next_off < t.evidence then since
  else op.time

/-- Not a FIN at the stream position while more than that is proven. -/
def Fair : Op → Track → Prop
  | .fin seq _ _, t => t.anchored = true → t.next_off < t.evidence → t.offsetOf seq ≠ t.next_off
  | _, _ => True

end Op

/-- The states of a stream position that operations in `A` lead to, with the beginning of the period
in which the evidence is past the stream position. -/
inductive Clocked (A : Op → Track → Prop) : Track → Option Timestamp → Prop where
  | new : Clocked A Track.new none
  | op {t : Track} {since : Option Timestamp} (op : Op) (h : Clocked A t since) (hop : A op t) :
      Clocked A (op.exec t).1 (op.period t since)

/-- There is a time exactly while the evidence is past the stream position. -/
def Timed (t : Track) : Prop := t.evidence_since.isSome = true ↔ t.next_off < t.evidence

variable {t t' : Track} {op : Op}

section

variable (h : t.Timed)
include h

/-- An operation that changes nothing of the evidence. -/
theorem Timed.of_same (hex : (op.exec t).1 = t')
    (hoff : t'.next_off = t.next_off) (hec : t'.evidence = t.evidence)
    (hsn : t'.evidence_since = t.evidence_since) :
    t'.evidence_since = op.period t t.evidence_since ∧ t'.Timed := by
  constructor
  · unfold Op.period
    rw [hex, hoff, hec, hsn]
    split_ifs with hle hlt
    · have hnn : ¬ t.evidence_since.isSome = true := fun hso => absurd (h.mp hso) (by omega)
      exact Option.not_isSome_iff_eq_none.mp hnn
    · rfl
    · omega
  · unfold Timed
    rw [hoff, hec, hsn]
    exact h

theorem Timed.advanceTo (off : ℕ) (ts : Timestamp) :
    (t.advanceTo off ts).evidence_since = (Op.advanceTo off ts).period t t.evidence_since ∧
      (t.advanceTo off ts).Timed := by
  by_cases hle : off ≤ t.next_off
  · have heq : t.advanceTo off ts = t := if_pos hle
    exact h.of_same rfl (by rw [heq]) (by rw [heq]) (by rw [heq])
  have hex : ((Op.advanceTo off ts).exec t).1 = t.advanceTo off ts := rfl
  have hsn : (t.advanceTo off ts).evidence_since =
      if t.evidence ≤ off then none else t.evidence_since := by
    rw [Track.advanceTo, if_neg hle]
  have hoff : (t.advanceTo off ts).next_off = off := by
    rw [next_off_advanceTo]
    omega
  have hec := t.evidence_advanceTo off ts
  unfold Op.period Timed at *
  rw [hex, hsn, hoff, hec]
  by_cases hps : t.evidence ≤ off
  · rw [if_pos hps, if_pos hps]
    exact ⟨rfl, by simpa using hps⟩
  · rw [if_neg hps, if_neg hps, if_pos (by omega)]
    exact ⟨rfl, h.trans ⟨fun _ => by omega, fun _ => by omega⟩⟩

theorem Timed.recordEvidence (seq : Seq) (ts : Timestamp) (max_ahead : ℕ) :
    (t.recordEvidence seq ts max_ahead).1.evidence_since =
        (Op.recordEvidence seq ts max_ahead).period t t.evidence_since ∧
      (t.recordEvidence seq ts max_ahead).1.Timed := by
  have hex : ((Op.recordEvidence seq ts max_ahead).exec t).1 =
      (t.recordEvidence seq ts max_ahead).1 := rfl
  rcases t.recordEvidence_cases seq ts max_ahead with heq | ⟨c, -, -, -, -, heq⟩ |
    ⟨off, -, hlt, -, -, heq⟩
  · exact h.of_same hex (by rw [heq]) (by rw [heq]) (by rw [heq])
  · exact h.of_same hex (by rw [heq]; rfl) (by rw [heq]; rfl) (by rw [heq]; rfl)
  · have hps : t.next_off < max t.evidence off := lt_max_of_lt_right hlt
    unfold Op.period Timed at *
    rw [hex, heq]
    rw [if_neg (not_le.mpr hps)]
    cases hsn : t.evidence_since with
    | none =>
      rw [if_neg fun hc => absurd (h.mpr hc) (by rw [hsn]; exact Bool.false_ne_true)]
      exact ⟨rfl, fun _ => hps, fun _ => rfl⟩
    | some since =>
      rw [if_pos (h.mp (by rw [hsn]; rfl))]
      exact ⟨rfl, fun _ => hps, fun _ => rfl⟩

theorem Timed.fin {seq : Seq} {ts : Timestamp} {max_ahead : ℕ}
    (hfr : (Op.fin seq ts max_ahead).Fair t) :
    (t.fin seq ts max_ahead).1.evidence_since =
        (Op.fin seq ts max_ahead).period t t.evidence_since ∧
      (t.fin seq ts max_ahead).1.Timed := by
  have hex : ((Op.fin seq ts max_ahead).exec t).1 = (t.fin seq ts max_ahead).1 := rfl
  by_cases ha : t.anchored = true
  swap
  · have heq : t.fin seq ts max_ahead = (t, none) := by simp [Track.fin, ha]
    exact h.of_same hex (by rw [heq]) (by rw [heq]) (by rw [heq])
  rcases t.fin_cases seq ts max_ahead with heq | ⟨hle, heq⟩
  · exact h.of_same hex (by rw [heq]) (by rw [heq]) (by rw [heq])
  -- the FIN takes evidence back, but not to the stream position
  obtain ⟨t1, ht1⟩ : ∃ t1 : Track, t1 = { t with
    fin_off := some (t.offsetOf seq).toNat
    evidence := min t.evidence (t.offsetOf seq).toNat } := ⟨_, rfl⟩
  have hiff : t1.next_off < t1.evidence ↔ t.next_off < t.evidence := by
    rw [ht1]
    dsimp only
    constructor
    · intro hlt
      exact hlt.trans_le (min_le_left _ _)
    · intro hlt
      have hne := hfr ha hlt
      omega
  have hsn : t1.evidence_since = t.evidence_since := by rw [ht1]
  have h₁ : t1.Timed := by
    unfold Timed
    rw [hsn, hiff]
    exact h
  rw [← ht1] at heq
  obtain ⟨hres, htm⟩ := h₁.recordEvidence seq ts max_ahead
  rw [heq]
  refine ⟨hres.trans ?_, htm⟩
  unfold Op.period
  rw [hex, heq, hsn]
  simp only [hiff]
  rfl

/-- Every operation keeps the time. -/
theorem Timed.exec (hfr : op.Fair t) :
    (op.exec t).1.evidence_since = op.period t t.evidence_since ∧ (op.exec t).1.Timed := by
  cases op with
  | advanceTo off ts => exact h.advanceTo off ts
  | recordEvidence seq ts max_ahead => exact h.recordEvidence seq ts max_ahead
  | fin seq ts max_ahead => exact h.fin hfr
  | anchor seq ts =>
    refine h.of_same rfl ?_ ?_ ?_ <;> simp only [Op.exec, anchor] <;> split_ifs <;> rfl
  | farAhead off payload ts max_ahead =>
    rcases t.farAhead_cases off payload ts max_ahead with ⟨c, -, -, heq⟩ | heq <;>
      refine h.of_same rfl ?_ ?_ ?_ <;> simp only [Op.exec, heq] <;> rfl
  | farMissing start len ts max_ahead =>
    rcases t.farMissing_cases start len ts max_ahead with ⟨c, -, -, heq⟩ | ⟨c, -, -, heq⟩ | heq <;>
      refine h.of_same rfl ?_ ?_ ?_ <;> simp only [Op.exec, heq] <;> rfl
  | expireStray now max_age =>
    rcases t.expireStray_eq now max_age with heq | heq <;>
      refine h.of_same rfl ?_ ?_ ?_ <;> simp only [Op.exec, heq] <;> rfl
  | recordSkip from_ to_ => exact h.of_same rfl rfl rfl rfl
  | dropStray => exact h.of_same rfl rfl rfl rfl
  | openHole ts => exact h.of_same rfl rfl rfl rfl
  | countOld => exact h.of_same rfl rfl rfl rfl

end

/-- In every state that fair operations lead to, the time is the beginning of the period. -/
theorem Clocked.timed {A : Op → Track → Prop} (hA : ∀ op t, A op t → op.Fair t)
    {since : Option Timestamp} (h : Clocked A t since) : t.evidence_since = since ∧ t.Timed := by
  induction h with
  | new => exact ⟨rfl, by simp [Timed, Track.new]⟩
  | op op h hop ih =>
    obtain ⟨hsn, htm⟩ := ih.2.exec (hA op _ hop)
    exact ⟨hsn.trans (by rw [ih.1]), htm⟩

/-- Nothing is due before the grace period has passed since the evidence went past the stream
position. -/
theorem evidenceDue_of_early {now : Timestamp} {grace : Duration}
    (h : ∀ start, t.evidence_since = some start → now.saturatingSub start < grace) :
    t.evidenceDue now grace = none := by
  unfold evidenceDue
  cases hsn : t.evidence_since with
  | none => rfl
  | some start => exact if_neg fun hc => absurd (h start hsn) (not_lt.mpr hc.2)

end Track

/-! ## The reassemblers -/

section

variable {A : Track.Op → Track → Prop} {c c' : Core}

theorem Core.Change.clocked (hA : Plain A) (h : Core.Change A c c')
    (hc : ∃ since, Clocked A c.track since) : ∃ since, Clocked A c'.track since := by
  obtain ⟨since, hc⟩ := hc
  have had : ∀ off ts, ∃ since, Clocked A (c.track.advanceTo off ts) since :=
    fun off ts => ⟨_, .op (.advanceTo off ts) hc (hA _ _ rfl)⟩
  cases h with
  | note h => exact ⟨since, h.track ▸ hc⟩
  | track op allowed carries stays leaves => exact ⟨_, .op op hc allowed⟩
  | skip off ts =>
    by_cases hle : off ≤ c.track.next_off
    · rw [Core.skipTo_of_le hle]
      exact ⟨since, hc⟩
    · rw [Core.skipTo_of_lt (not_le.mp hle)]
      have hsk := Clocked.op (.recordSkip c.track.next_off off) hc (hA _ _ rfl)
      exact ⟨_, .op (.advanceTo off ts) hsk (hA _ _ rfl)⟩
  | move off ts track gaps confirmed marked => exact track ▸ had off ts
  | jump off ts stopped => exact had off ts

theorem Core.Changes.clocked (hA : Plain A) (h : Core.Changes A c c')
    (hc : ∃ since, Clocked A c.track since) : ∃ since, Clocked A c'.track since := by
  induction h with
  | refl => exact hc
  | step first rest ih => exact ih (first.clocked hA hc)
  | resync op cand allowed carries stays takes during reached rest ih ih' =>
    obtain ⟨since, hc⟩ := hc
    exact ih' (ih ⟨_, .op op hc allowed⟩)
  | confirm during moved rest ih ih' => exact ih' (ih hc)

end

def Call.time : Call → Option Timestamp
  | .segment _ _ ts => some ts
  | .segmentInto _ _ ts => some ts
  | .peerAck _ ts => some ts
  | .finSeen _ ts => some ts
  | .missing _ _ ts => some ts
  | .advanceTime now => some now
  | _ => none

/-- Not a FIN at the stream position while more than that is proven. -/
def Call.Fair (t : Track) : Call → Prop
  | .finSeen end_ _ =>
    t.anchored = true → t.next_off < t.evidence → t.offsetOf end_ ≠ t.next_off
  | _ => True

instance (t : Track) (call : Call) : Decidable (call.Fair t) :=
  match call with
  | .finSeen _ _ => inferInstanceAs (Decidable (_ → _ → _ ≠ _))
  | .segment .. | .segmentInto .. | .setOrigin .. | .peerAck .. | .missing .. | .drainInto |
    .flushPending | .advanceTime .. | .take | .release => isTrue trivial

/-- The fair operations, of which those that record proof are made at the time of a call. -/
def Track.FairAmong (calls : List Call) (op : Track.Op) (t : Track) : Prop :=
  op.Fair t ∧ (op.proves = true → ∃ call ∈ calls, call.time = op.time)

theorem Track.plain_fairAmong (calls : List Call) : Plain (FairAmong calls) := by
  intro op t hpr
  refine ⟨?_, fun hc => absurd (hpr.symm.trans hc) Bool.false_ne_true⟩
  cases op with
  | fin seq ts max_ahead => cases hpr
  | _ => trivial

theorem Call.Fair.grants {calls : List Call} {call : Call} (hmem : call ∈ calls) {t : Track}
    (h : call.Fair t) : call.Grants (FairAmong calls) t := by
  cases call with
  | peerAck ack ts => exact fun _ => ⟨trivial, fun _ => ⟨_, hmem, rfl⟩⟩
  | finSeen end_ ts => exact fun _ => ⟨h, fun _ => ⟨_, hmem, rfl⟩⟩
  | missing seq len ts => exact fun _ _ => ⟨trivial, fun _ => ⟨_, hmem, rfl⟩⟩
  | _ => trivial

namespace SegmentBufferReassembler

theorem run_clocked (config : Config) (max_ooo_buffer : ℕ) (policy : TcpOverlapPolicy)
    (calls : List Call)
    (hfr : Along (fun call s => call.Fair s.1.track) calls
      (new config max_ooo_buffer policy, .new)) :
    (run calls (new config max_ooo_buffer policy, .new)).Sat
      (fun s => ∃ since, Clocked (FairAmong calls) s.1.track since)
      fun _ => True := by
  have hA := plain_fairAmong calls
  refine (Except.runs_sat (I := fun s : SegmentBufferReassembler × StreamChunks => s.1.Fine .any ∧
    ∃ since, Clocked (FairAmong calls) s.1.track since) (fun call s hcl hs => ?_)
    ((Except.Along.of_forall (P := (· ∈ calls)) (fun _ h => h) _).and hfr)
    ⟨fine_new _ _ _, none, .new⟩).imp fun s hs => hs.2
  by_cases hrs : call = .release
  · subst hrs
    obtain ⟨hfn, since, hck⟩ := hs
    exact ⟨⟨.of_none rfl, Frame.trackOk_any _⟩, _, .op .dropStray hck (hA _ _ rfl)⟩
  · exact (exec_changes hA hs.1 (hcl.2.grants hcl.1) hrs).imp fun s' h' =>
      ⟨h'.2, h'.1.clocked hA hs.2⟩

variable {s : SegmentBufferReassembler} {now : Timestamp}

theorem confirmed_appendReady (bytes : List UInt8) :
    (s.appendReady bytes).ack_confirmed_gaps = s.ack_confirmed_gaps := by
  unfold appendReady
  dsimp only
  repeat' split
  all_goals rfl

/-- Giving up on a hole by the deadline does not count it as confirmed. -/
theorem confirmed_skipToFirst :
    (s.skipToFirst now).ack_confirmed_gaps = s.ack_confirmed_gaps := by
  have hskip (off : ℕ) : (s.skipTo off now).ack_confirmed_gaps = s.ack_confirmed_gaps := by
    unfold skipTo Core.skipTo
    dsimp only
    split <;> rfl
  unfold skipToFirst
  split
  · rfl
  · next first _ =>
    rw [← hskip first]
    unfold deliverFirst appendReadyOwned
    dsimp only
    repeat' split
    all_goals first | rfl | exact confirmed_appendReady _

theorem checkEvidence_of_early (h : ∀ start, s.track.evidence_since = some start →
      now.saturatingSub start < s.rules.ack_grace) : s.checkEvidence now = .ok s := by
  rw [checkEvidence, evidenceDue_of_early h]
  rfl

/-- Before the grace period has passed, the timers confirm no hole: what they give up, they give up by
the deadline. -/
theorem advanceTime_of_early (h : ∀ start, s.track.evidence_since = some start →
      now.saturatingSub start < s.rules.ack_grace) (out : StreamChunks) :
    ((Call.advanceTime now).exec (s, out)).Sat
      (fun s' => s'.1.ack_confirmed_gaps = s.ack_confirmed_gaps) fun _ => True := by
  have htimers : (s.checkTimers now).Sat
      (fun s' => s'.ack_confirmed_gaps = s.ack_confirmed_gaps) fun _ => True := by
    unfold checkTimers
    split
    · exact rfl
    · rw [checkEvidence_of_early h]
      change Except.Sat (s.rules.deadline.mul 4 >>= _) _ _
      refine Except.sat_bind_of_forall (fun limit => ?_) _
      change (if s.holeExpired now limit then s.skipToFirst now else s).ack_confirmed_gaps = _
      split
      · exact confirmed_skipToFirst
      · rfl
  exact (htimers.imp fun s' hs' => hs').bind

end SegmentBufferReassembler

namespace BufferedReassembler

theorem run_clocked (config : Config) (calls : List Call)
    (hfr : Along (fun call s => call.Fair s.1.track) calls
      ((new config, .new) : BufferedReassembler × StreamChunks)) :
    (run calls (new config, .new)).Sat
      (fun s => ∃ since, Clocked (FairAmong calls) s.1.track since)
      fun _ => True := by
  have hA := plain_fairAmong calls
  refine (Except.runs_sat (I := fun s : BufferedReassembler × StreamChunks => s.1.Fine .any ∧
    ∃ since, Clocked (FairAmong calls) s.1.track since) (fun call s hcl hs => ?_)
    ((Except.Along.of_forall (P := (· ∈ calls)) (fun _ h => h) _).and hfr)
    ⟨fine_new _, none, .new⟩).imp fun s hs => hs.2
  by_cases hrs : call = .release
  · subst hrs
    obtain ⟨hfn, since, hck⟩ := hs
    exact ⟨fine_released, _, .op .dropStray hck (hA _ _ rfl)⟩
  · exact (exec_changes hA hs.1 (hcl.2.grants hcl.1) hrs).imp fun s' h' =>
      ⟨h'.2, h'.1.clocked hA hs.2⟩

variable {s : BufferedReassembler} {now : Timestamp}

theorem confirmed_appendWithCap (bytes : List UInt8) :
    (s.appendWithCap bytes).ack_confirmed_gaps = s.ack_confirmed_gaps := by
  unfold appendWithCap
  dsimp only
  repeat' split
  all_goals rfl

/-- Giving up on a hole by the deadline does not count it as confirmed. -/
theorem confirmed_releaseReorder :
    (s.releaseReorder now).ack_confirmed_gaps = s.ack_confirmed_gaps := by
  have hskip (off : ℕ) : ({ s with reorder := none }.skipTo off now).ack_confirmed_gaps =
      s.ack_confirmed_gaps := by
    unfold skipTo Core.skipTo
    dsimp only
    split <;> rfl
  unfold releaseReorder
  split
  · next c _ =>
    rw [← hskip c.off]
    unfold deliverAt
    dsimp only
    split
    · rfl
    · exact confirmed_appendWithCap _
  · rfl

theorem checkEvidence_of_early (h : ∀ start, s.track.evidence_since = some start →
      now.saturatingSub start < s.rules.ack_grace) : s.checkEvidence now = s := by
  rw [checkEvidence, evidenceDue_of_early h]

/-- Before the grace period has passed, the timers confirm no hole: what they give up, they give up by
the deadline. -/
theorem advanceTime_of_early (h : ∀ start, s.track.evidence_since = some start →
      now.saturatingSub start < s.rules.ack_grace) (out : StreamChunks) :
    ((Call.advanceTime now).exec (s, out)).Sat
      (fun s' => s'.1.ack_confirmed_gaps = s.ack_confirmed_gaps) fun _ => True := by
  have htimers : (s.checkTimers now).Sat
      (fun s' => s'.ack_confirmed_gaps = s.ack_confirmed_gaps) fun _ => True := by
    unfold checkTimers
    split
    · exact rfl
    · rw [checkEvidence_of_early h]
      refine Except.sat_bind_of_forall (fun limit => ?_) _
      change (if s.holeExpired now then s.releaseReorder now else s).ack_confirmed_gaps = _
      split
      · exact confirmed_releaseReorder
      · rfl
  exact (htimers.imp fun s' hs' => hs').bind

end BufferedReassembler

/-- In every state that operations on the stream position lead to, none of which is a FIN at the
stream position while more is proven, there is a time exactly while the evidence is past the stream
position, and it is the time of the operation that began that period. So it is in every run of
either reassembler without such a FIN, where that operation was made in one of the calls. Before the
grace period has passed since then, no hole is skipped for being proven, and a call that only lets time
pass confirms none: it gives a hole up by the deadline alone. -/
theorem evidence_clock (config : Config) (max_ooo_buffer : ℕ) (policy : TcpOverlapPolicy)
    (calls : List Call) :
    (∀ t since, Track.Clocked Track.Op.Fair t since →
      t.evidence_since = since ∧ (t.evidence_since.isSome = true ↔ t.next_off < t.evidence)) ∧
    (Call.Along (fun call s => call.Fair s.1.track) calls
        (SegmentBufferReassembler.new config max_ooo_buffer policy, .new) →
      (Call.run calls (SegmentBufferReassembler.new config max_ooo_buffer policy, .new)).Sat
        (fun s => ∃ since, Track.Clocked (Track.FairAmong calls) s.1.track since ∧
          s.1.track.evidence_since = since ∧
          ∀ now, (∀ start, since = some start → now.saturatingSub start < s.1.rules.ack_grace) →
            s.1.checkEvidence now = .ok s.1 ∧ ((Call.advanceTime now).exec s).Sat
              (fun s' => s'.1.ack_confirmed_gaps = s.1.ack_confirmed_gaps) fun _ => True)
        fun _ => True) ∧
    (Call.Along (fun call s => call.Fair s.1.track) calls
        ((BufferedReassembler.new config, .new) : BufferedReassembler × StreamChunks) →
      (Call.run calls (BufferedReassembler.new config, .new)).Sat
        (fun s => ∃ since, Track.Clocked (Track.FairAmong calls) s.1.track since ∧
          s.1.track.evidence_since = since ∧
          ∀ now, (∀ start, since = some start → now.saturatingSub start < s.1.rules.ack_grace) →
            s.1.checkEvidence now = s.1 ∧ ((Call.advanceTime now).exec s).Sat
              (fun s' => s'.1.ack_confirmed_gaps = s.1.ack_confirmed_gaps) fun _ => True)
        fun _ => True) := by
  have hfr : ∀ op t, FairAmong calls op t → op.Fair t := fun _ _ h => h.1
  refine ⟨fun t since h => ?_, fun h => ?_, fun h => ?_⟩
  · exact h.timed fun _ _ h => h
  · refine (run_clocked config max_ooo_buffer policy calls h).imp
      fun s hs => ?_
    obtain ⟨since, hs⟩ := hs
    have hsn := (hs.timed hfr).1
    refine ⟨since, hs, hsn, fun now hearly => ?_⟩
    have hearly' : ∀ start, s.1.track.evidence_since = some start → _ :=
      fun start hstart => hearly start (hsn.symm.trans hstart)
    exact ⟨checkEvidence_of_early hearly', advanceTime_of_early hearly' s.2⟩
  · refine (run_clocked config calls h).imp fun s hs => ?_
    obtain ⟨since, hs⟩ := hs
    have hsn := (hs.timed hfr).1
    refine ⟨since, hs, hsn, fun now hearly => ?_⟩
    have hearly' : ∀ start, s.1.track.evidence_since = some start → _ :=
      fun start hstart => hearly start (hsn.symm.trans hstart)
    exact ⟨checkEvidence_of_early hearly', advanceTime_of_early hearly' s.2⟩

/-- An ACK for bytes that were not seen, and a FIN past them. -/
def provenHole : List Call :=
  [.setOrigin 0, .peerAck 11 .zero, .finSeen 20 ⟨1, 0⟩]

theorem evidence_clock_provenHole :
    Call.Along (fun call s => call.Fair s.1.track) provenHole
        (SegmentBufferReassembler.new Config.new 1000 .first, .new) ∧
      (Call.run provenHole (SegmentBufferReassembler.new Config.new 1000 .first, .new)).Sat
        (fun s => ∃ since, Track.Clocked (Track.FairAmong provenHole) s.1.track since ∧
          s.1.track.evidence_since = since ∧
          ∀ now, (∀ start, since = some start → now.saturatingSub start < s.1.rules.ack_grace) →
            s.1.checkEvidence now = .ok s.1 ∧ ((Call.advanceTime now).exec s).Sat
              (fun s' => s'.1.ack_confirmed_gaps = s.1.ack_confirmed_gaps) fun _ => True)
        fun _ => True := by
  have hfr : Along (fun call s => call.Fair s.1.track) provenHole
      (new new 1000 .first, .new) := by decide +kernel
  exact ⟨hfr, (evidence_clock new 1000 .first provenHole).2.1 hfr⟩

/-- An ACK, a FIN before what it proves, and a second later another FIN. -/
def twoFins : List Call :=
  [.setOrigin 0, .peerAck 11 .zero, .finSeen 0 .zero, .finSeen 20 ⟨1, 0⟩, .advanceTime ⟨1, 0⟩]

/-- A FIN at the stream position leaves a time with nothing proven. The hole in front of the next FIN
is then skipped at the very time at which that FIN has proven it. -/
theorem fin_leaves_clock :
    (∃ t since, Track.Clocked (fun _ _ => True) t since ∧ t.evidence ≤ t.next_off ∧
      t.evidence_since = some Timestamp.zero) ∧
    (Call.run twoFins (SegmentBufferReassembler.new Config.new 1000 .first, .new)).map
      (fun s => (s.1.gaps, s.1.track.next_off)) = .ok (1, 20) ∧
    (Call.run twoFins (BufferedReassembler.new Config.new, .new)).map
      (fun s => (s.1.gaps, s.1.track.next_off)) = .ok (1, 20) := by
  refine ⟨?_, by decide +kernel, by decide +kernel⟩
  have har := Clocked.op (A := fun _ _ => True) (.anchor 0 .zero) .new trivial
  have hack := Clocked.op (.recordEvidence 10 .zero (2^20)) har trivial
  exact ⟨_, _, .op (.fin 0 .zero (2^20)) hack trivial, by decide +kernel, by decide +kernel⟩

end Flowscope
