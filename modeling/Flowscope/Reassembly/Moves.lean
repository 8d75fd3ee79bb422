import Flowscope.Reassembly.Changes

/-!
# The moves of a stream

Whatever a reassembler does in a call, its stream position and its ready output change by two kinds
of moves only: a hole is skipped, or bytes at the stream position are delivered under the cap. The
two built-in reassemblers are shown in their own modules to be paths of such moves (`Path`); what
holds of every move therefore holds of both, for every sequence of calls. `Flowscope.Conservation` (the
length of the stream) and `Flowscope.Placement` (the place of its bytes) rest on this.

A `Frame` is what is known of a run: which bytes the segments carried at which offsets, which
offsets were covered, and how sequence numbers are placed. `Frame.any` knows nothing, so that a fact
shown in every frame holds of every run.
-/

namespace Flowscope

open Option StreamChunks Flowscope.Core Track

/-- What is known of a run. -/
structure Frame where
  /-- A segment carried this byte at this offset. -/
  carried : ℕ → UInt8 → Prop
  /-- The stream was seen to reach this offset. -/
  covered : ℕ → Prop
  /-- What is known of the stream position. -/
  window : Track → Prop
  /-- The stream was seen to reach every offset before one that it reaches. -/
  covered_of_le : ∀ a b, a ≤ b → covered b → covered a
  /-- Anchoring keeps the position known. -/
  window_anchor : ∀ t seq ts, window t → window (t.anchor seq ts)
  /-- So does advancing to a covered offset. -/
  window_advanceTo : ∀ t off ts, covered off → window t → window (t.advanceTo off ts)
  /-- Nothing but the position matters. -/
  window_congr : ∀ t t', t'.anchored = t.anchored → t'.next_seq = t.next_seq →
    t'.next_off = t.next_off → window t → window t'
  /-- This operation may be made in this position. -/
  allows : Track.Op → Track → Prop
  /-- Only operations that record proof are in question. -/
  plain : Track.Plain allows

namespace Frame

/-- Nothing is known but which operations are made. -/
def allowing (A : Track.Op → Track → Prop) (hA : Track.Plain A) : Frame where
  carried _ _ := True
  covered _ := True
  window _ := True
  covered_of_le _ _ _ _ := trivial
  window_anchor _ _ _ _ := trivial
  window_advanceTo _ _ _ _ _ := trivial
  window_congr _ _ _ _ _ _ := trivial
  allows := A
  plain := hA

/-- Nothing is known. -/
abbrev any : Frame := allowing (fun _ _ => True) fun _ _ _ => trivial

variable (F : Frame)

/-- The bytes were carried at the offsets from `off` on. -/
def CarriesAt (off : ℕ) (data : List UInt8) : Prop :=
  ∀ i b, data[i]? = some b → F.carried (off + i) b

/-- A segment's bytes, at the offset that its sequence number has, were carried there. -/
def Fits (seq : Seq) (data : List UInt8) : Prop :=
  ∀ t, F.window t → t.anchored = true →
    F.covered (t.offsetOf seq + data.length).toNat ∧
      ∀ (i : ℕ) b, data[i]? = some b → 0 ≤ t.offsetOf seq + i → F.carried (t.offsetOf seq + i).toNat b

/-- The stream reaches the offset that a sequence number has. -/
def Proves (seq : Seq) : Prop :=
  ∀ t, F.window t → t.anchored = true → F.covered (t.offsetOf seq).toNat

/-- A candidate's bytes were carried where it holds them. -/
def CandidateOk (c : Candidate) : Prop := F.CarriesAt c.off c.data ∧ F.covered c.end_

/-- What is known of the stream position and of what is held beyond it. -/
structure TrackOk (t : Track) : Prop where
  window : F.window t
  evidence : F.covered t.evidence
  /-- The stray's bytes were carried where it is. -/
  stray : ∀ c, t.oow = some c → F.CandidateOk c

/-- The stream reaches the end of cut bytes. -/
def Cuts (seq len : Seq) : Prop :=
  (∀ t, F.window t → t.anchored = true → F.covered (t.offsetOf seq + len.toNat).toNat) ∧
    F.Proves (seq + len)

/-- What is known of a call, made in a position. -/
def Knows (t : Track) (call : Call) : Prop :=
  call.Grants F.allows t ∧ match call with
    | .segment seq payload _ => F.Fits seq payload
    | .segmentInto seq payload _ => F.Fits seq payload
    | .peerAck ack _ => F.Proves (ack - 1)
    | .finSeen end_ _ => F.Proves end_
    | .missing seq len _ => F.Cuts seq len
    | _ => True

/-- A held candidate that is fed again is placed where it was. -/
def Refeeds : Prop :=
  ∀ t c, F.window t → t.anchored = true → F.CandidateOk c → F.Fits (t.seqOf c.off) c.data

/-- A segment past the window has a true offset, or nothing is known of any. -/
def Places (r : StreamRules) : Prop :=
  r.max_ahead < 2^63 ∨ (∀ off b, F.carried off b) ∧ ∀ off, F.covered off

variable {F}

theorem CarriesAt.drop {off : ℕ} {data : List UInt8} (h : F.CarriesAt off data) (n : ℕ) :
    F.CarriesAt (off + n) (data.drop n) := by
  intro i b hb
  rw [List.getElem?_drop] at hb
  have := h (n + i) b hb
  rwa [← Nat.add_assoc] at this

variable {seq : Seq} {data : List UInt8} {off : ℕ} {r : StreamRules}

/-- The part of a segment from a later offset on. -/
theorem Fits.carriesAt (h : F.Fits seq data) {t : Track}
    (hw : F.window t) (ha : t.anchored = true) {n : ℕ} (hoff : t.offsetOf seq + n = off) :
    F.CarriesAt off (data.drop n) := by
  intro i b hb
  rw [List.getElem?_drop] at hb
  have := (h t hw ha).2 (n + i) b hb (by omega)
  rwa [show (t.offsetOf seq + ((n + i : ℕ) : ℤ)).toNat = off + i by omega] at this

/-- A segment past the window, where it is held. -/
theorem Fits.asU64 (h : F.Fits seq data)
    (hr : F.Places r) {t : Track} (hw : F.window t) (ha : t.anchored = true)
    (hfar : asI64 r.max_ahead < t.offsetOf seq - t.next_off) :
    F.CarriesAt (Flowscope.asU64 (t.offsetOf seq)) data ∧
      F.covered (Flowscope.asU64 (t.offsetOf seq) + data.length) := by
  rcases hr with hr | hr
  · rw [asI64_of_lt hr] at hfar
    rw [asU64_of_nonneg (by omega)]
    have hcar : F.CarriesAt (t.offsetOf seq).toNat (data.drop 0) := h.carriesAt hw ha (by omega)
    refine ⟨hcar, ?_⟩
    have := (h t hw ha).1
    rwa [show (t.offsetOf seq + data.length).toNat = (t.offsetOf seq).toNat + data.length by omega]
      at this
  · exact ⟨fun _ _ _ => hr.1 _ _, hr.2 _⟩

/-- Cut bytes past the window, where they are held. -/
theorem Cuts.asU64 {len : Seq} (h : F.Cuts seq len) (hr : F.Places r)
    {t : Track} (hw : F.window t) (ha : t.anchored = true)
    (hfar : asI64 r.max_ahead < t.offsetOf seq - t.next_off) :
    F.covered (Flowscope.asU64 (t.offsetOf seq) + len.toNat) := by
  rcases hr with hr | hr
  · rw [asI64_of_lt hr] at hfar
    rw [asU64_of_nonneg (by omega)]
    have := h.1 t hw ha
    rwa [show (t.offsetOf seq + len.toNat).toNat = (t.offsetOf seq).toNat + len.toNat by omega]
      at this
  · exact hr.2 _

section Allowing

variable {A : Track.Op → Track → Prop} {hA : Track.Plain A}

theorem places_any (r : StreamRules) : (allowing A hA).Places r :=
  .inr ⟨fun _ _ => trivial, fun _ => trivial⟩

theorem fits_any (seq : Seq) (data : List UInt8) : (allowing A hA).Fits seq data :=
  fun _ _ _ => ⟨trivial, fun _ _ _ _ => trivial⟩

theorem knows_allowing {t : Track} {call : Call} (h : call.Grants A t) :
    (allowing A hA).Knows t call := by
  refine ⟨h, ?_⟩
  cases call with
  | segment | segmentInto => exact fits_any _ _
  | peerAck | finSeen => exact fun _ _ _ => trivial
  | missing => exact ⟨fun _ _ _ => trivial, fun _ _ _ => trivial⟩
  | setOrigin | drainInto | flushPending | advanceTime | take | release => trivial

theorem knows_any (t : Track) (call : Call) : any.Knows t call :=
  knows_allowing (call.grants_true t)

theorem refeeds_any : (allowing A hA).Refeeds := fun _ _ _ _ _ => fits_any _ _

theorem trackOk_any (t : Track) : (allowing A hA).TrackOk t :=
  ⟨trivial, trivial, fun _ _ => ⟨fun _ _ _ => trivial, trivial⟩⟩

end Allowing

/-! ## What is known stays known -/

theorem TrackOk.congr {t t' : Track} (h : F.TrackOk t) (hw : F.window t')
    (he : t'.evidence = t.evidence) (ho : t'.oow = t.oow ∨ t'.oow = none) : F.TrackOk t' := by
  refine ⟨hw, he ▸ h.evidence, fun c hc => ?_⟩
  rcases ho with ho | ho
  · exact h.stray c (ho ▸ hc)
  · rw [ho] at hc
    exact absurd hc.symm (some_ne_none c)

variable {t : Track}

theorem TrackOk.anchor (h : F.TrackOk t) (seq : Seq) (ts : Timestamp) :
    F.TrackOk (t.anchor seq ts) :=
  h.congr (F.window_anchor _ _ _ h.window) (by simp) (.inl (by simp))

theorem TrackOk.advanceTo (h : F.TrackOk t) (hoff : F.covered off)
    (ts : Timestamp) : F.TrackOk (t.advanceTo off ts) :=
  h.congr (F.window_advanceTo _ _ _ hoff h.window) (by simp) (.inl (by simp))

theorem TrackOk.skipTo {c : Core} (h : F.TrackOk c.track) (hoff : F.covered off)
    (ts : Timestamp) : F.TrackOk (c.skipTo off ts).track := by
  by_cases hle : off ≤ c.track.next_off
  · rwa [skipTo_of_le hle]
  · rw [skipTo_of_lt (not_le.mp hle)]
    refine Frame.TrackOk.advanceTo ?_ hoff ts
    exact h.congr (F.window_congr c.track _ rfl rfl rfl h.window) rfl (.inl rfl)

variable (h : F.TrackOk t)
include h

theorem TrackOk.dropStray : F.TrackOk t.dropStray :=
  h.congr (F.window_congr t _ rfl rfl rfl h.window) rfl (.inr rfl)

theorem TrackOk.takeStray : F.TrackOk t.takeStray :=
  h.congr (F.window_congr t _ rfl rfl rfl h.window) rfl (.inr rfl)

theorem TrackOk.expireStray (now : Timestamp) (age : Duration) :
    F.TrackOk (t.expireStray now age) := by
  rcases t.expireStray_eq now age with heq | heq
  · rwa [heq]
  · rw [heq]
    exact h.dropStray

/-- Evidence for a covered offset: the frontier stays covered, and a candidate that it uses was
carried where it is. -/
theorem TrackOk.recordEvidence (hseq : F.Proves seq) (ts : Timestamp) (max_ahead : ℕ) :
    F.TrackOk (t.recordEvidence seq ts max_ahead).1 ∧
      ∀ c, (t.recordEvidence seq ts max_ahead).2 = some c → F.CandidateOk c := by
  rcases t.recordEvidence_cases seq ts max_ahead with heq | ⟨c, -, hc, -, -, heq⟩ |
    ⟨off, ha, -, hle, -, heq⟩
  · rw [heq]
    exact ⟨h, fun c hc => absurd hc.symm (some_ne_none c)⟩
  · rw [heq]
    refine ⟨h.takeStray, fun c' hc' => ?_⟩
    obtain rfl := some.inj hc'
    exact h.stray c hc
  · rw [heq]
    have hcov : F.covered off := F.covered_of_le _ _ (by omega) (hseq t h.window ha)
    refine ⟨⟨F.window_congr t _ rfl rfl rfl h.window, ?_, h.stray⟩,
      fun c hc => absurd hc.symm (some_ne_none c)⟩
    rcases max_choice t.evidence off with hmax | hmax <;> dsimp only <;> rw [hmax]
    · exact h.evidence
    · exact hcov

theorem TrackOk.fin {seq : Seq} (hseq : F.Proves seq) (ts : Timestamp) (max_ahead : ℕ) :
    F.TrackOk (t.fin seq ts max_ahead).1 ∧
      ∀ c, (t.fin seq ts max_ahead).2 = some c → F.CandidateOk c := by
  rcases t.fin_cases seq ts max_ahead with heq | ⟨-, heq⟩
  · rw [heq]
    exact ⟨h, fun c hc => absurd hc.symm (some_ne_none c)⟩
  · rw [heq]
    have hok : F.TrackOk
        { t with
          fin_off := some (t.offsetOf seq).toNat
          evidence := min t.evidence (t.offsetOf seq).toNat } :=
      ⟨F.window_congr t _ rfl rfl rfl h.window,
        F.covered_of_le _ _ (min_le_left _ _) h.evidence, h.stray⟩
    exact hok.recordEvidence hseq ts max_ahead

/-- A far segment: it is held where it was carried, or corroborates a candidate that was. -/
theorem TrackOk.farAhead {payload : List UInt8}
    (hc : F.CarriesAt off payload) (hend : F.covered (off + payload.length)) (ts : Timestamp)
    (max_ahead : ℕ) :
    F.TrackOk (t.farAhead off payload ts max_ahead).1 ∧
      ∀ c, (t.farAhead off payload ts max_ahead).2 = .resync c →
        F.CandidateOk c ∧ (t.farAhead off payload ts max_ahead).1.oow = none := by
  rcases t.farAhead_cases off payload ts max_ahead with ⟨c, hc, -, heq⟩ | heq
  · rw [heq]
    refine ⟨h.takeStray, fun c' hc' => ?_⟩
    obtain rfl := FarOutcome.resync.inj hc'
    exact ⟨h.stray c hc, rfl⟩
  · rw [heq]
    refine ⟨⟨F.window_congr t _ rfl rfl rfl h.window, h.evidence, fun c hc' => ?_⟩,
      fun c hc' => by cases hc'⟩
    obtain rfl := some.inj hc'
    exact ⟨hc, hend⟩

/-- Far cut bytes. -/
theorem TrackOk.farMissing {start len : ℕ}
    (hend : F.covered (start + len)) (ts : Timestamp) (max_ahead : ℕ) :
    F.TrackOk (t.farMissing start len ts max_ahead).1 ∧
      ∀ c, (t.farMissing start len ts max_ahead).2 = some c →
        F.CandidateOk c ∧ (t.farMissing start len ts max_ahead).1.oow = none := by
  rcases t.farMissing_cases start len ts max_ahead with ⟨c, hc, hsr, heq⟩ | ⟨c, hc, -, heq⟩ | heq
  · rw [heq]
    refine ⟨⟨F.window_congr t _ rfl rfl rfl h.window, h.evidence, fun c' hc' => ?_⟩,
      fun c' hc' => absurd hc'.symm (some_ne_none c')⟩
    obtain rfl := some.inj hc'
    refine ⟨(h.stray c hc).1, ?_⟩
    rw [← hsr] at hend
    simpa only [Candidate.end_, Nat.add_assoc] using hend
  · rw [heq]
    refine ⟨h.takeStray, fun c' hc' => ?_⟩
    obtain rfl := some.inj hc'
    exact ⟨h.stray c hc, rfl⟩
  · rw [heq]
    refine ⟨⟨F.window_congr t _ rfl rfl rfl h.window, h.evidence, fun c' hc' => ?_⟩,
      fun c' hc' => absurd hc'.symm (some_ne_none c')⟩
    obtain rfl := some.inj hc'
    exact ⟨fun i b hb => by simp at hb, by simpa [Candidate.end_] using hend⟩

end Frame

/-- Four deadlines are representable, or their overflow is an accepted fault. -/
def StreamRules.Timely (E : Fault → Prop) (r : StreamRules) : Prop :=
  4 * r.deadline ≤ Duration.max ∨ E .durationOverflow

/-- Nested calls end, or that they do not is an accepted fault. -/
def StreamRules.Nested (E : Fault → Prop) (r : StreamRules) : Prop :=
  r.max_ahead < 2^63 ∨ E .recursion

theorem Duration.mul_sat {E : Fault → Prop} {r : StreamRules} (h : r.Timely E) :
    (r.deadline.mul 4).Sat (fun _ => True) E := by
  unfold Duration.mul
  split_ifs with hle
  · trivial
  · exact h.resolve_left hle

/-- The faults that a run can end in: four deadlines may not be representable, and a `max_ahead`
that is negative as an `i64` makes calls nest without end. No loop diverges, and no `expect` fails. -/
def StreamRules.Faults (r : StreamRules) : Fault → Prop
  | .durationOverflow => Duration.max < 4 * r.deadline
  | .recursion => 2^63 ≤ r.max_ahead
  | .divergence | .expect => False

theorem StreamRules.timely_faults (r : StreamRules) : r.Timely r.Faults :=
  (Nat.lt_or_ge Duration.max (4 * r.deadline)).symm

theorem StreamRules.nested_faults (r : StreamRules) : r.Nested r.Faults :=
  Nat.lt_or_ge r.max_ahead (2^63)

/-! ## Moves -/

/-- The stream is where it was, and so is the output. -/
structure Core.Same (c c' : Core) : Prop where
  config : c'.toConfig = c.toConfig
  ready : c'.ready = c.ready
  next_off : c'.track.next_off = c.track.next_off
  gap_bytes : c'.gap_bytes = c.gap_bytes
  dropped : c'.bytes_dropped_oversize = c.bytes_dropped_oversize
  stop : c'.stop = c.stop

/-- Counting an old segment changes nothing else. -/
theorem Core.noteOld_spec {F : Frame} {c : Core} (h : F.TrackOk c.track) (start end_ : ℤ) :
    c.Same (c.noteOld start end_) ∧ F.TrackOk (c.noteOld start end_).track ∧
      (c.noteOld start end_).track.anchored = c.track.anchored ∧
      (c.noteOld start end_).track.oow = c.track.oow := by
  unfold noteOld
  split_ifs
  · exact ⟨⟨rfl, rfl, rfl, rfl, rfl, rfl⟩,
      h.congr (F.window_congr c.track _ rfl rfl rfl h.window) rfl (.inl rfl), rfl, rfl⟩
  · exact ⟨⟨rfl, rfl, rfl, rfl, rfl, rfl⟩, h, rfl, rfl⟩
  · exact ⟨⟨rfl, rfl, rfl, rfl, rfl, rfl⟩, h, rfl, rfl⟩

theorem Core.noteOld_changes {A : Op → Track → Prop} (hA : Plain A) (c : Core)
    (start end_ : ℤ) : c.Changes A (c.noteOld start end_) := by
  unfold noteOld
  split_ifs
  · exact .op hA .countOld rfl trivial rfl rfl
  · exact .note ⟨rfl, rfl, rfl, rfl, rfl, le_rfl, rfl⟩
  · exact .note ⟨rfl, rfl, rfl, rfl, rfl, le_rfl, rfl⟩

/-- The bytes were appended to the output under the cap. -/
inductive Core.Appends (c : Core) (bytes : List UInt8) (c' : Core) : Prop where
  /-- They fit. -/
  | push (config : c'.toConfig = c.toConfig) (next_off : c'.track.next_off = c.track.next_off)
      (gap_bytes : c'.gap_bytes = c.gap_bytes) (ready : c'.ready = c.ready.pushData bytes)
      (dropped : c'.bytes_dropped_oversize = c.bytes_dropped_oversize) (stop : c'.stop = c.stop)
  /-- The oldest bytes make room, and of the new ones those that fit the cap are kept. -/
  | slide (config : c'.toConfig = c.toConfig) (next_off : c'.track.next_off = c.track.next_off)
      (gap_bytes : c'.gap_bytes = c.gap_bytes) (cap drop extra : ℕ)
      (max_buffer : c.max_buffer = some cap) (hdrop : drop ≤ c.ready.len)
      (hextra : extra ≤ bytes.length) (hall : extra = 0 ∨ drop = c.ready.len)
      (ready : c'.ready = ((c.ready.dropFront drop).pushGap extra).pushData (bytes.drop extra))
      (dropped : c'.bytes_dropped_oversize = c.bytes_dropped_oversize + drop + extra)
      (stop : c'.stop = c.stop)
  /-- The side stops. -/
  | overflow (config : c'.toConfig = c.toConfig) (next_off : c'.track.next_off = c.track.next_off)
      (gap_bytes : c'.gap_bytes = c.gap_bytes) (cap : ℕ) (max_buffer : c.max_buffer = some cap)
      (policy : c.overflow_policy = .dropFlow) (ready : c'.ready = c.ready)
      (stop : c'.stop = some .overflow)

/-- No more than the bytes are appended. -/
theorem Core.Appends.len_le {c c' : Core} {bytes : List UInt8} (h : c.Appends bytes c') :
    c'.ready.len ≤ c.ready.len + bytes.length := by
  cases h with
  | push config next_off gap_bytes ready dropped stop => rw [ready, len_pushData]
  | slide config next_off gap_bytes cap drop extra max_buffer hdrop hextra hall ready =>
    rw [ready, len_pushData, len_pushGap, len_dropFront,
      List.length_drop]
    omega
  | overflow config next_off gap_bytes cap max_buffer policy ready stop =>
    rw [ready]
    exact Nat.le_add_right _ _

variable {F : Frame}

inductive Move (F : Frame) (c : Core) : Core → Prop where
  /-- The stream and the output do not change. -/
  | note {c' : Core} (h : c.Same c') : Move F c c'
  /-- The stream skips to a covered offset. -/
  | skip (off : ℕ) (ts : Timestamp) (h : F.covered off) : Move F c (c.skipTo off ts)
  /-- Bytes that were carried at the stream position are delivered. -/
  | deliver {c' : Core} (bytes : List UInt8) (ts : Timestamp) (running : c.stop = none)
      (carries : F.CarriesAt c.track.next_off bytes)
      (covered : F.covered (c.track.next_off + bytes.length))
      (h : { c with track := c.track.advanceTo (c.track.next_off + bytes.length) ts }.Appends
        bytes c') : Move F c c'
  /-- A stopped side passes over bytes. -/
  | jump (off : ℕ) (ts : Timestamp) (stopped : c.stop ≠ none) (h : F.covered off) :
      Move F c { c with track := c.track.advanceTo off ts }

/-- The bytes at the stream position are the caller's to deliver; nothing is ready. -/
structure Core.Passed (F : Frame) (c : Core) (bytes : List UInt8) (c' : Core) : Prop where
  empty : c.ready.isEmpty = true
  ready : c'.ready = c.ready
  running : c.stop = none
  stop : c'.stop = c.stop
  next_off : c'.track.next_off = c.track.next_off + bytes.length
  /-- They were carried at the stream position. -/
  carries : F.CarriesAt c.track.next_off bytes
  /-- The stream was seen to reach their end. -/
  covered : F.covered (c.track.next_off + bytes.length)
  config : c'.toConfig = c.toConfig
  gap_bytes : c'.gap_bytes = c.gap_bytes
  dropped : c'.bytes_dropped_oversize = c.bytes_dropped_oversize

def Path (F : Frame) : Core → Core → Prop := Relation.ReflTransGen (Move F)

namespace Path

theorem refl (c : Core) : Path F c c := Relation.ReflTransGen.refl

theorem trans {c₁ c2 c3 : Core} (h : Path F c₁ c2) (h' : Path F c2 c3) : Path F c₁ c3 :=
  Relation.ReflTransGen.trans h h'

theorem of_move {c c' : Core} (h : Move F c c') : Path F c c' := Relation.ReflTransGen.single h

theorem note {c c' : Core} (h : c.Same c') : Path F c c' := of_move (.note h)

theorem keeps {I : Core → Prop} (hI : ∀ c c', Move F c c' → I c → I c') {c c' : Core}
    (h : Path F c c') (hc : I c) : I c' := by
  induction h with
  | refl => exact hc
  | tail _ hmv ih => exact hI _ _ hmv ih

end Path

/-- Only an overflow stops the side. -/
theorem Core.Appends.overflows {c c' : Core} {bytes : List UInt8} (h : c.Appends bytes c')
    (hsp : c.stop = none) (hne : c'.stop ≠ none) :
    c'.stop = some .overflow ∧ c.overflow_policy = .dropFlow ∧ c.max_buffer ≠ none := by
  cases h with
  | push config next_off gap_bytes ready dropped stop => exact absurd (stop.trans hsp) hne
  | slide config next_off gap_bytes cap drop extra _ _ _ _ ready dropped stop =>
    exact absurd (stop.trans hsp) hne
  | overflow config next_off gap_bytes cap max_buffer policy ready stop =>
    exact ⟨stop, policy, fun hnn => by cases hnn.symm.trans max_buffer⟩

theorem Core.marked_pushData {c : Core} {ready : StreamChunks} {bytes : List UInt8} (hb : bytes ≠ [])
    (hr : c.ready = ready.pushData bytes) (held : ℕ) : (c.updateWatermark held).Marked := by
  refine .inr (.inl (lt_max_of_lt_right (Nat.add_pos_left ?_ _)))
  rw [hr, len_pushData]
  exact Nat.add_pos_right _ (List.length_pos_iff.mpr hb)

/-- Appended bytes leave a mark, and the stream as it was or a side that stopped. -/
structure Core.Appended (c : Core) (bytes : List UInt8) (c' : Core) : Prop where
  appends : c.Appends bytes c'
  gaps : c'.gaps = c.gaps
  confirmed : c'.ack_confirmed_gaps = c.ack_confirmed_gaps
  marked : c'.Marked
  rest : c'.stop = none ∧ c'.track = c.track ∨ c'.stop ≠ none ∧ c'.track = c.track.dropStray

/-- The stream moves past bytes that were carried where it is, and they are appended. -/
theorem Core.Appended.delivers {c c' : Core} {bytes : List UInt8} {ts : Timestamp}
    (h : { c with track := c.track.advanceTo (c.track.next_off + bytes.length) ts }.Appended bytes c')
    (hsp : c.stop = none) (ht : F.TrackOk c.track) (hcar : F.CarriesAt c.track.next_off bytes)
    (hcov : F.covered (c.track.next_off + bytes.length)) :
    (Path F c c' ∧ c.Changes F.allows c' ∧ c'.toConfig = c.toConfig) ∧ F.TrackOk c'.track ∧
      (c.track.anchored = true → c'.track.anchored = true) ∧
      c'.track.next_off = c.track.next_off + bytes.length ∧
      (c'.stop = none ∧ c'.track.oow = c.track.oow ∨ c'.stop ≠ none ∧ c'.track.oow = none) := by
  have hcn : c'.toConfig = c.toConfig := by
    cases h.appends with
    | push config => exact config
    | slide config => exact config
    | overflow config => exact config
  refine ⟨⟨.of_move (.deliver bytes ts hsp hcar hcov h.appends), .deliver F.plain _ ts
    (h.rest.imp (fun h => h.2) fun h => h.2) h.gaps h.confirmed h.marked, hcn⟩, ?_⟩
  have ha := anchored_advanceTo c.track (c.track.next_off + bytes.length) ts
  have hnx : (c.track.advanceTo (c.track.next_off + bytes.length) ts).next_off = _ :=
    (next_off_advanceTo _ _ _).trans (max_eq_right (Nat.le_add_right _ _))
  rcases h.rest with ⟨hst, htr⟩ | ⟨hst, htr⟩
  · rw [htr]
    exact ⟨ht.advanceTo hcov ts, ha.trans, hnx, .inl ⟨hst, oow_advanceTo _ _ _⟩⟩
  · rw [htr]
    exact ⟨(ht.advanceTo hcov ts).dropStray, ha.trans, hnx, .inr ⟨hst, rfl⟩⟩

/-- What a call does to the stream and to the output that the consumer has collected. -/
inductive Turn (F : Frame) : Core × StreamChunks → Core × StreamChunks → Prop where
  /-- The stream moves. -/
  | path {c c' : Core} (out : StreamChunks) (h : Path F c c') : Turn F (c, out) (c', out)
  /-- The stream moves, and then bytes pass through. -/
  | pass {c c₁ c' : Core} (out : StreamChunks) (bytes : List UInt8) (h : Path F c c₁)
      (h' : c₁.Passed F bytes c') : Turn F (c, out) (c', out.pushData bytes)
  /-- The ready output is drained. -/
  | drain (c : Core) (out : StreamChunks) : Turn F (c, out) (c.drainInto out)

/-- Where and when a call anchors a stream that is not anchored. -/
def Call.anchorAt : Call → Option (Seq × Timestamp)
  | .segment seq payload ts => if payload = [] then none else some (seq, ts)
  | .segmentInto seq payload ts => if payload = [] then none else some (seq, ts)
  | .setOrigin seq => some (seq, Timestamp.zero)
  | .missing seq len ts => if len = 0 then none else some (seq, ts)
  | _ => none

/-- A call that gives data up: `take` and `release`. -/
def Call.drops : Call → Bool
  | .take => true
  | .release => true
  | _ => false

namespace Call

variable {R : Type} [Reassembler R] {r r' : R} {call : Call} {E : Fault → Prop}

/-- A call that anchors the stream does the same to two sides to which bytes, an origin and cut bytes
there do the same. -/
theorem exec_congr {seq : Seq} {ts : Timestamp} {out : StreamChunks}
    (h : call.anchorAt = some (seq, ts))
    (hsg : ∀ payload ≠ [],
      Reassembler.segment r seq payload ts = Reassembler.segment r' seq payload ts)
    (hin : ∀ payload ≠ [],
      Reassembler.segmentInto r seq payload ts = Reassembler.segmentInto r' seq payload ts)
    (hor : ts = Timestamp.zero → Reassembler.setOrigin r seq = Reassembler.setOrigin r' seq)
    (hms : ∀ len ≠ 0, Reassembler.missing r seq len ts = Reassembler.missing r' seq len ts) :
    call.exec (r, out) = call.exec (r', out) := by
  cases call <;> simp only [anchorAt, ite_none_left_eq_some, reduceCtorEq] at h
  case segment =>
    obtain ⟨hpay, rfl, rfl⟩ := h
    simp only [exec, hsg _ hpay]
  case segmentInto =>
    obtain ⟨hpay, rfl, rfl⟩ := h
    simp only [exec, hin _ hpay]
  case setOrigin =>
    obtain ⟨rfl, rfl⟩ := h
    simp only [exec, hor rfl]
  case missing =>
    obtain ⟨hlen, rfl, rfl⟩ := h
    simp only [exec, hms _ hlen]

/-- A call that neither anchors the stream nor gives data up does nothing to a side that stays as it
is when time passes and when there is nothing to do. -/
theorem exec_idle (h : call.anchorAt = none) (hdr : call.drops = false)
    (hsg : ∀ seq ts, Reassembler.segment r seq [] ts = .ok r)
    (hin : ∀ seq ts, Reassembler.segmentInto r seq [] ts = .ok (r, .buffered))
    (hms : ∀ seq ts, Reassembler.missing r seq 0 ts = .ok r)
    (hack : ∀ ack ts, (Reassembler.peerAck r ack ts).Sat (· = r) E)
    (hfin : ∀ fin ts, Reassembler.finSeen r fin ts = .ok r)
    (hdrn : Reassembler.drainInto r .new = (r, .new)) (hfl : Reassembler.flushPending r = .ok r)
    (htm : ∀ now, (Reassembler.advanceTime r now).Sat (· = r) E) :
    (call.exec (r, new)).Sat (· = (r, .new)) E := by
  cases call <;> simp only [anchorAt, drops, ite_eq_left_iff, reduceCtorEq, imp_false, not_not]
    at h hdr
  case peerAck ack ts => exact Except.Sat.bind ((hack ack ts).imp fun _ hr => by rw [hr]; rfl)
  case advanceTime now => exact Except.Sat.bind ((htm now).imp fun _ hr => by rw [hr]; rfl)
  all_goals simp only [exec, h, hsg, hin, hms, hfin, hdrn, hfl]; rfl

end Call

end Flowscope
