import Flowscope.Reassembly.Basic
import Flowscope.Lib.Serial

/-!
# Stream positions

The bookkeeping that the two built-in reassemblers share (`Track` of `src/reassembler.rs`): the map
from sequence numbers to stream offsets, the one out-of-window candidate, the evidence that ACKs
and a FIN give for bytes that were not seen, and the holes that were skipped last.

A sequence number is placed by its signed distance from the number expected next. That is its
offset as long as it lies within `2^31` of the stream position (`Track.Aligned.offsetOf`);
outside of that the program cannot tell, and `offsetOf` here wraps as the program does.
-/

namespace Flowscope

/-- A segment held back, out of window or ahead of the stream. -/
structure Candidate where
  /-- Where its bytes start. -/
  off : ℕ
  /-- Its bytes. -/
  data : List UInt8
  /-- When it arrived. -/
  ts : Timestamp
  /-- How many bytes right after `data` the capture cut. -/
  missing : ℕ
deriving DecidableEq, Repr

/-- The offset just past the data and the cut bytes. -/
def Candidate.end_ (c : Candidate) : ℕ := c.off + c.data.length + c.missing

/-- `size_of::<Candidate>()` on a 64-bit target. -/
def Candidate.size : ℕ := 48

/-- What a held candidate occupies. Its bytes are an exact copy of a payload, so that the capacity
is their number. -/
def Candidate.heapBytes (c : Candidate) : ℕ := Candidate.size + c.data.length

/-- What a far-away segment led to. -/
inductive FarOutcome where
  /-- It is held as a stray. -/
  | held
  /-- It corroborated the candidate, at which the stream goes on. -/
  | resync (c : Candidate)
deriving DecidableEq, Repr

/-- How many skipped holes are remembered. -/
def skippedHistory : ℕ := 8

structure Track where
  /-- Whether the position of a sequence number is known. -/
  anchored : Bool
  /-- The sequence number of the next in-order byte. -/
  next_seq : Seq
  /-- The offset of the next in-order byte. -/
  next_off : ℕ
  /-- The highest offset that an ACK or the FIN proves was sent. -/
  evidence : ℕ
  /-- When `evidence` first went past `next_off`. -/
  evidence_since : Option Timestamp
  /-- The offset of this side's FIN. -/
  fin_off : Option ℕ
  /-- One out-of-window segment. -/
  oow : Option Candidate
  /-- A ring of the holes skipped last. -/
  skipped : List (ℕ × ℕ)
  /-- How many entries of the ring are used. -/
  skipped_len : ℕ
  /-- The oldest entry of the ring. -/
  skipped_head : ℕ
  /-- When the stream last moved, or a hole appeared. -/
  last_progress : Timestamp
  /-- Segments that were not believed. -/
  out_of_window : ℕ
  /-- Candidates that were used after all. -/
  origin_resets : ℕ
deriving DecidableEq, Repr

namespace Track

def new : Track where
  anchored := false
  next_seq := 0
  next_off := 0
  evidence := 0
  evidence_since := none
  fin_off := none
  oow := none
  skipped := List.replicate skippedHistory (0, 0)
  skipped_len := 0
  skipped_head := 0
  last_progress := Timestamp.zero
  out_of_window := 0
  origin_resets := 0

/-- Anchor the stream at `seq` unless it is anchored already. -/
def anchor (t : Track) (seq : Seq) (ts : Timestamp) : Track :=
  if t.anchored then t else { t with anchored := true, next_seq := seq, last_progress := ts }

/-- The sequence number of the offset `off`. -/
def seqOf (t : Track) (off : ℕ) : Seq := t.next_seq + BitVec.ofInt 32 ((off : ℤ) - t.next_off)

/-- The signed offset of a sequence number. -/
def offsetOf (t : Track) (seq : Seq) : ℤ := t.next_off + (seq - t.next_seq).toInt

/-- Move the stream position forward to `off`. -/
def advanceTo (t : Track) (off : ℕ) (ts : Timestamp) : Track :=
  if off ≤ t.next_off then t
  else
    { t with
      next_off := off
      next_seq := t.next_seq + BitVec.ofNat 32 (off - t.next_off)
      last_progress := t.last_progress.max ts
      evidence_since := if t.evidence ≤ off then none else t.evidence_since }

/-- Remember a skipped hole, in place of the oldest one when the ring is full. -/
def recordSkip (t : Track) (from_ to_ : ℕ) : Track :=
  { t with
    skipped := t.skipped.set ((t.skipped_head + t.skipped_len) % skippedHistory) (from_, to_)
    skipped_len := if t.skipped_len < skippedHistory then t.skipped_len + 1 else t.skipped_len
    skipped_head :=
      if t.skipped_len < skippedHistory then t.skipped_head
      else (t.skipped_head + 1) % skippedHistory }

/-- Whether `[start, end_)` overlaps a hole that is remembered. -/
def inSkipped (t : Track) (start end_ : ℕ) : Bool :=
  (List.range t.skipped_len).any fun i =>
    let hole := t.skipped.getD ((t.skipped_head + i) % skippedHistory) (0, 0)
    start < hole.2 && hole.1 < end_

/-- Use the candidate: it is no longer counted as a stray. -/
def takeStray (t : Track) : Track :=
  { t with
    oow := none
    out_of_window := t.out_of_window - 1
    origin_resets := t.origin_resets + 1 }

/-- A segment that starts more than `max_ahead` past the stream position. -/
def farAhead (t : Track) (off : ℕ) (payload : List UInt8) (ts : Timestamp) (max_ahead : ℕ) :
    Track × FarOutcome :=
  let hold : Track × FarOutcome :=
    ({ t with
        out_of_window := t.out_of_window + 1
        oow := some { off, data := payload, ts, missing := 0 } }, .held)
  match t.oow with
  | some c => if max (off - c.off) (c.off - off) ≤ max_ahead then (t.takeStray, .resync c) else hold
  | none => hold

/-- Cut bytes that continue the candidate of the same packet. Also whether they did. -/
def extendStray (t : Track) (start len : ℕ) (ts : Timestamp) : Track × Bool :=
  match t.oow with
  | some c =>
    if c.ts = ts ∧ c.end_ = start then
      ({ t with oow := some { c with missing := c.missing + len } }, true)
    else (t, false)
  | none => (t, false)

/-- Cut bytes that start more than `max_ahead` past the stream position. Also the candidate that
they corroborated. -/
def farMissing (t : Track) (start len : ℕ) (ts : Timestamp) (max_ahead : ℕ) :
    Track × Option Candidate :=
  match t.extendStray start len ts with
  | (t, true) => (t, none)
  | (t, false) =>
    match t.farAhead start [] ts max_ahead with
    | (t, .resync c) => (t, some c)
    | (t, .held) => ((t.extendStray start len ts).1, none)

/-- Record proof that the stream extends to `seq`. Also the candidate that far proof
corroborated. -/
def recordEvidence (t : Track) (seq : Seq) (ts : Timestamp) (max_ahead : ℕ) :
    Track × Option Candidate :=
  if !t.anchored then (t, none)
  else if t.offsetOf seq ≤ t.next_off then (t, none)
  else
    let off := (t.offsetOf seq).toNat
    let off := match t.fin_off with
      | some fin => min off fin
      | none => off
    -- the stream may already be past this side's FIN
    if off ≤ t.next_off then (t, none)
    else if max_ahead < off - t.next_off then
      match t.oow with
      | some c => if c.off ≤ off then (t.takeStray, some c) else (t, none)
      | none => (t, none)
    else
      let t := { t with evidence := max t.evidence off }
      (if t.next_off < t.evidence then { t with evidence_since := t.evidence_since.or (some ts) }
        else t, none)

/-- Record this side's FIN at `seq`. -/
def fin (t : Track) (seq : Seq) (ts : Timestamp) (max_ahead : ℕ) : Track × Option Candidate :=
  if !t.anchored then (t, none)
  else
    let off := t.offsetOf seq
    if off < t.next_off then (t, none)
    else
      { t with fin_off := some off.toNat, evidence := min t.evidence off.toNat }.recordEvidence
        seq ts max_ahead

/-- The proven frontier, once `grace` has passed since it appeared. -/
def evidenceDue (t : Track) (now : Timestamp) (grace : Duration) : Option ℕ :=
  match t.evidence_since with
  | some since =>
    if t.next_off < t.evidence ∧ grace ≤ now.saturatingSub since then some t.evidence else none
  | none => none

/-- The proven frontier, ignoring the grace period. -/
def evidenceFrontier (t : Track) : Option ℕ :=
  if t.next_off < t.evidence then some t.evidence else none

/-- Forget a candidate that is older than `max_age`. -/
def expireStray (t : Track) (now : Timestamp) (max_age : Duration) : Track :=
  match t.oow with
  | some c => if max_age < now.saturatingSub c.ts then { t with oow := none } else t
  | none => t

/-- Forget the candidate. -/
def dropStray (t : Track) : Track := { t with oow := none }

/-- What the candidate occupies. -/
def heapBytes (t : Track) : ℕ :=
  match t.oow with
  | some c => c.heapBytes
  | none => 0

/-! ## What each operation changes -/

theorem heapBytes_of_none {t : Track} (h : t.oow = none) : t.heapBytes = 0 := by
  rw [heapBytes, h]

theorem anchor_of_anchored {t : Track} (h : t.anchored = true) (seq : Seq) (ts : Timestamp) :
    t.anchor seq ts = t := if_pos h

variable (t : Track) (seq : Seq) (off : ℕ) (ts : Timestamp) (max_ahead : ℕ)

@[simp]
theorem anchored_anchor : (t.anchor seq ts).anchored = true := by
  unfold anchor
  split_ifs with h
  · exact h
  · rfl

@[simp]
theorem next_off_anchor : (t.anchor seq ts).next_off = t.next_off := by
  unfold anchor
  split_ifs <;> rfl

@[simp]
theorem evidence_anchor : (t.anchor seq ts).evidence = t.evidence := by
  unfold anchor
  split_ifs <;> rfl

@[simp]
theorem oow_anchor : (t.anchor seq ts).oow = t.oow := by
  unfold anchor
  split_ifs <;> rfl

@[simp]
theorem next_off_advanceTo : (t.advanceTo off ts).next_off = max t.next_off off := by
  by_cases h : off ≤ t.next_off
  · rw [advanceTo, if_pos h, max_eq_left h]
  · rw [advanceTo, if_neg h, max_eq_right (not_le.mp h).le]

@[simp]
theorem anchored_advanceTo : (t.advanceTo off ts).anchored = t.anchored := by
  unfold advanceTo
  split_ifs <;> rfl

@[simp]
theorem evidence_advanceTo : (t.advanceTo off ts).evidence = t.evidence := by
  unfold advanceTo
  split_ifs <;> rfl

@[simp]
theorem oow_advanceTo : (t.advanceTo off ts).oow = t.oow := by
  unfold advanceTo
  split_ifs <;> rfl

/-- A far segment corroborates the candidate, or takes its place. -/
theorem farAhead_cases (payload : List UInt8) (ts : Timestamp) (max_ahead : ℕ) :
    (∃ c, t.oow = some c ∧ max (off - c.off) (c.off - off) ≤ max_ahead ∧
        t.farAhead off payload ts max_ahead = (t.takeStray, .resync c)) ∨
      t.farAhead off payload ts max_ahead =
        ({ t with
            out_of_window := t.out_of_window + 1
            oow := some { off, data := payload, ts, missing := 0 } }, .held) := by
  unfold farAhead
  cases h : t.oow with
  | none => exact .inr rfl
  | some c =>
    dsimp only
    split_ifs with hc
    · exact .inl ⟨c, rfl, hc, rfl⟩
    · exact .inr rfl

/-- Far cut bytes extend the candidate, corroborate it, or take its place. -/
theorem farMissing_cases (start len : ℕ) (ts : Timestamp) (max_ahead : ℕ) :
    (∃ c, t.oow = some c ∧ c.end_ = start ∧ t.farMissing start len ts max_ahead =
        ({ t with oow := some { c with missing := c.missing + len } }, none)) ∨
      (∃ c, t.oow = some c ∧ max (start - c.off) (c.off - start) ≤ max_ahead ∧
        t.farMissing start len ts max_ahead = (t.takeStray, some c)) ∨
      t.farMissing start len ts max_ahead =
        ({ t with
            out_of_window := t.out_of_window + 1
            oow := some { off := start, data := [], ts, missing := len } }, none) := by
  by_cases hext : ∃ c, t.oow = some c ∧ c.ts = ts ∧ c.end_ = start
  · obtain ⟨c, hc, hts, hend⟩ := hext
    refine .inl ⟨c, hc, hend, ?_⟩
    simp [farMissing, extendStray, hc, hts, hend]
  · have hno : t.extendStray start len ts = (t, false) := by
      cases hc : t.oow with
      | none => simp [extendStray, hc]
      | some c =>
        have hne : ¬(c.ts = ts ∧ c.end_ = start) := fun h => hext ⟨c, hc, h⟩
        simp only [extendStray, hc, if_neg hne]
    refine .inr ?_
    unfold farMissing
    rw [hno]
    dsimp only
    rcases t.farAhead_cases start [] ts max_ahead with ⟨c, hc, hnr, heq⟩ | heq
    · exact .inl ⟨c, hc, hnr, by rw [heq]⟩
    · refine .inr ?_
      rw [heq]
      simp [extendStray, Candidate.end_]

/-- Evidence changes nothing, or uses the candidate, or moves the proven frontier inside the
window. -/
theorem recordEvidence_cases :
    t.recordEvidence seq ts max_ahead = (t, none) ∨
      (∃ c, t.anchored = true ∧ t.oow = some c ∧ (c.off : ℤ) ≤ t.offsetOf seq ∧
        (t.next_off : ℤ) + max_ahead < t.offsetOf seq ∧
        t.recordEvidence seq ts max_ahead = (t.takeStray, some c)) ∨
      ∃ off, t.anchored = true ∧ t.next_off < off ∧ (off : ℤ) ≤ t.offsetOf seq ∧
        off ≤ t.next_off + max_ahead ∧
        t.recordEvidence seq ts max_ahead =
          ({ t with
              evidence := max t.evidence off
              evidence_since := t.evidence_since.or (some ts) }, none) := by
  unfold recordEvidence
  by_cases ha : t.anchored = true
  swap
  · exact .inl (by simp [ha])
  by_cases hoff : t.offsetOf seq ≤ t.next_off
  · exact .inl (by simp [hoff])
  simp only [ha, Bool.not_true, Bool.false_eq_true, if_false, if_neg hoff]
  -- the offset that is proven, after the FIN has bounded it
  generalize hof' : (match t.fin_off with
    | some fin => min (t.offsetOf seq).toNat fin
    | none => (t.offsetOf seq).toNat) = off
  have hle : (off : ℤ) ≤ t.offsetOf seq := by
    rw [← hof']
    cases t.fin_off <;> dsimp only <;> omega
  by_cases hps : off ≤ t.next_off
  · exact .inl (if_pos hps)
  rw [if_neg hps]
  by_cases hfar : max_ahead < off - t.next_off
  · rw [if_pos hfar]
    cases hc : t.oow with
    | none => exact .inl rfl
    | some c =>
      dsimp only
      by_cases hrh : c.off ≤ off
      · exact .inr (.inl ⟨c, trivial, rfl, by omega, by omega, by rw [if_pos hrh]⟩)
      · exact .inl (if_neg hrh)
  · refine .inr (.inr ⟨off, trivial, by omega, hle, by omega, ?_⟩)
    have : t.next_off < max t.evidence off := lt_max_of_lt_right (not_le.mp hps)
    rw [if_neg hfar]
    simp [this]

/-- A FIN changes nothing, or is recorded and then proves that the stream reaches it. -/
theorem fin_cases :
    t.fin seq ts max_ahead = (t, none) ∨
      (t.next_off : ℤ) ≤ t.offsetOf seq ∧ t.fin seq ts max_ahead =
        { t with
          fin_off := some (t.offsetOf seq).toNat
          evidence := min t.evidence (t.offsetOf seq).toNat }.recordEvidence seq ts max_ahead := by
  unfold fin
  by_cases ha : t.anchored = true
  swap
  · exact .inl (by simp [ha])
  by_cases hoff : t.offsetOf seq < t.next_off
  · exact .inl (by simp [hoff])
  · exact .inr ⟨not_lt.mp hoff, by simp [ha, hoff]⟩

/-- What recording evidence leaves: the stream position, and the candidate unless it is used. -/
structure Proved (t : Track) (p : Track × Option Candidate) : Prop where
  next_off : p.1.next_off = t.next_off
  anchored : p.1.anchored = t.anchored
  next_seq : p.1.next_seq = t.next_seq
  kept : p.2 = none → p.1.oow = t.oow
  used : ∀ c, p.2 = some c → t.oow = some c ∧ p.1.oow = none ∧ t.anchored = true

theorem proved_recordEvidence : t.Proved (t.recordEvidence seq ts max_ahead) := by
  rcases t.recordEvidence_cases seq ts max_ahead with heq | ⟨c, ha, hc, -, -, heq⟩ |
    ⟨off, -, -, -, -, heq⟩ <;> rw [heq]
  · exact ⟨rfl, rfl, rfl, fun _ => rfl, fun c hc => by cases hc⟩
  · refine ⟨rfl, rfl, rfl, fun hn => absurd hn (Option.some_ne_none c), fun c' hc' => ?_⟩
    obtain rfl := Option.some.inj hc'
    exact ⟨hc, rfl, ha⟩
  · exact ⟨rfl, rfl, rfl, fun _ => rfl, fun c hc => by cases hc⟩

theorem proved_fin : t.Proved (t.fin seq ts max_ahead) := by
  rcases t.fin_cases seq ts max_ahead with heq | ⟨-, heq⟩ <;> rw [heq]
  · exact ⟨rfl, rfl, rfl, fun _ => rfl, fun c hc => by cases hc⟩
  · obtain ⟨h1, h2, h3, h4, h5⟩ := proved_recordEvidence
      { t with
        fin_off := some (t.offsetOf seq).toNat
        evidence := min t.evidence (t.offsetOf seq).toNat } seq ts max_ahead
    exact ⟨h1, h2, h3, h4, h5⟩

/-- Far cut bytes leave the stream position, and use the candidate that there was. -/
theorem farMissing_keeps (start len : ℕ) (ts : Timestamp) (max_ahead : ℕ) :
    (t.farMissing start len ts max_ahead).1.next_off = t.next_off ∧
      (t.farMissing start len ts max_ahead).1.anchored = t.anchored ∧
      (∀ c, (t.farMissing start len ts max_ahead).2 = some c → t.oow = some c) ∧
      ∀ c, (t.farMissing start len ts max_ahead).2 = some c →
        max (start - c.off) (c.off - start) ≤ max_ahead := by
  rcases t.farMissing_cases start len ts max_ahead with ⟨c, -, -, heq⟩ | ⟨c, hc, hnr, heq⟩ |
    heq <;> rw [heq]
  · exact ⟨rfl, rfl, fun c hc => (by cases hc), fun c hc => by cases hc⟩
  · refine ⟨rfl, rfl, fun c' hc' => hc.trans hc', fun c' hc' => ?_⟩
    obtain rfl := Option.some.inj hc'
    exact hnr
  · exact ⟨rfl, rfl, fun c hc => (by cases hc), fun c hc => by cases hc⟩

variable {base : Seq} {f : ℕ}

theorem evidenceDue_eq_some {t : Track} {now : Timestamp} {grace : Duration}
    (h : t.evidenceDue now grace = some f) : f = t.evidence ∧ t.next_off < f := by
  unfold evidenceDue at h
  cases hs : t.evidence_since with
  | none => simp [hs] at h
  | some since =>
    simp only [hs] at h
    split_ifs at h with hc
    obtain rfl := Option.some.inj h
    exact ⟨rfl, hc.1⟩

theorem evidenceFrontier_eq_some {t : Track} (h : t.evidenceFrontier = some f) :
    f = t.evidence ∧ t.next_off < f := by
  unfold evidenceFrontier at h
  split_ifs at h with hc
  obtain rfl := Option.some.inj h
  exact ⟨rfl, hc⟩

theorem evidenceFrontier_eq_none {t : Track} : t.evidenceFrontier = none ↔ t.evidence ≤ t.next_off := by
  unfold evidenceFrontier
  split_ifs with hc
  · simpa using hc
  · simpa using hc

theorem expireStray_eq (now : Timestamp) (max_age : Duration) :
    t.expireStray now max_age = t ∨ t.expireStray now max_age = t.dropStray := by
  unfold expireStray
  cases t.oow with
  | none => exact .inl rfl
  | some c =>
    dsimp only
    split_ifs
    · exact .inr rfl
    · exact .inl rfl

theorem expireStray_keeps (now : Timestamp) (max_age : Duration) :
    (t.expireStray now max_age).next_off = t.next_off ∧
      (t.expireStray now max_age).anchored = t.anchored ∧
      ((t.expireStray now max_age).oow = t.oow ∨ (t.expireStray now max_age).oow = none) := by
  rcases t.expireStray_eq now max_age with heq | heq <;> rw [heq]
  · exact ⟨rfl, rfl, .inl rfl⟩
  · exact ⟨rfl, rfl, .inr rfl⟩

/-! ## Sequence numbers and offsets -/

/-- The position is numbered as it should be, when offset zero is numbered `base`. -/
def Aligned (base : Seq) (t : Track) : Prop := t.next_seq = Serial.number base t.next_off

theorem Aligned.advanceTo {t : Track} (h : t.Aligned base) (off : ℕ)
    (ts : Timestamp) : (t.advanceTo off ts).Aligned base := by
  by_cases hle : off ≤ t.next_off
  · rwa [Track.advanceTo, if_pos hle]
  · rw [Track.advanceTo, if_neg hle]
    have hoff : (off : ℤ) = t.next_off + (off - t.next_off : ℕ) := by omega
    show t.next_seq + BitVec.ofNat 32 (off - t.next_off) = Serial.number base off
    rw [hoff, Serial.number_add_natCast, ← h]

theorem Aligned.seqOf {t : Track} (h : t.Aligned base) (off : ℕ) :
    t.seqOf off = Serial.number base off := by
  rw [Track.seqOf, h, ← Serial.number_add, add_sub_cancel]

/-- The offset of a number is the position that it numbers, within `2^31` of the stream
position. -/
theorem Aligned.offsetOf {t : Track} (h : t.Aligned base) {z : ℤ}
    (hlo : -2^31 ≤ z - t.next_off) (hhi : z - t.next_off < 2^31) :
    t.offsetOf (Serial.number base z) = z := by
  rw [Track.offsetOf, h, Serial.toInt_number_sub_number (by norm_num) base z _ hlo hhi,
    add_sub_cancel]

/-- The sequence number of the stream position is at the stream position. -/
theorem offsetOf_next_seq : t.offsetOf t.next_seq = t.next_off := by
  simp [offsetOf]

theorem seqOf_next_off : t.seqOf t.next_off = t.next_seq := by
  simp [seqOf]

/-- An offset behind the stream position is numbered and placed back where it was, or at least `2^32`
too far. -/
theorem offsetOf_seqOf {off : ℕ} (h : off ≤ t.next_off) :
    t.offsetOf (t.seqOf off) = off ∨ (off : ℤ) + 2^32 ≤ t.offsetOf (t.seqOf off) := by
  have hds : t.offsetOf (t.seqOf off) = t.next_off + ((off : ℤ) - t.next_off).bmod (2^32) := by
    rw [offsetOf, seqOf, BitVec.add_comm, BitVec.add_sub_cancel, BitVec.toInt_ofInt]
  rw [hds, Int.bmod_def]
  split_ifs <;> omega

/-- The candidate is shorter than the sequence number space. -/
def Short (t : Track) : Prop := ∀ c, t.oow = some c → c.data.length + c.missing < 2^32

instance (t : Track) : Decidable t.Short :=
  decidable_of_iff (t.oow.all fun c => decide (c.data.length + c.missing < 2^32)) (by
    cases h : t.oow <;> simp [Short, h])

theorem Short.of_none {t : Track} (h : t.oow = none) : t.Short := by simp [Short, h]

theorem Short.of_eq {t t' : Track} (h : t.Short) (heq : t'.oow = t.oow ∨ t'.oow = none) :
    t'.Short := by
  rcases heq with heq | heq
  · rw [Short, heq]
    exact h
  · exact .of_none heq

end Track

/-- The settings that the built-in reassemblers share. -/
structure StreamRules where
  /-- How far past the stream position a segment is believed. -/
  max_ahead : ℕ
  /-- How long a hole is waited for that the peer acknowledged. -/
  ack_grace : Duration
  /-- How long a hole may block the stream. -/
  deadline : Duration
deriving DecidableEq, Repr

/-- `StreamRules::default()`: 1 MiB, 10 ms and 1 s. -/
def StreamRules.new : StreamRules where
  max_ahead := 2^20
  ack_grace := 10 * 10^6
  deadline := 10^9

end Flowscope
