import Flowscope.Reassembly.Core

/-!
# What a call changes

Whatever a call does to the fields that the built-in reassemblers share is a sequence of changes of
a few kinds (`Core.Change`): the stream skips a hole, or moves past bytes that leave a mark in the
counters, or an operation on the stream position is made that does not move it. Two kinds come with
what follows them (`Core.Changes`): a candidate that is taken, after which the stream reaches its
end, and a hole that counts as confirmed, after which the stream has moved.

What every change keeps, every call of both reassemblers keeps: a candidate was counted when it came
(`Track.StrayOk`), and a stream that left no mark never moved (`Core.Noted`).
-/

namespace Flowscope

open Track

namespace Track

/-- An operation on the stream position. -/
inductive Op where
  | anchor (seq : Seq) (ts : Timestamp)
  | advanceTo (off : ℕ) (ts : Timestamp)
  | recordSkip (from_ to_ : ℕ)
  | farAhead (off : ℕ) (payload : List UInt8) (ts : Timestamp) (max_ahead : ℕ)
  | farMissing (start len : ℕ) (ts : Timestamp) (max_ahead : ℕ)
  | recordEvidence (seq : Seq) (ts : Timestamp) (max_ahead : ℕ)
  | fin (seq : Seq) (ts : Timestamp) (max_ahead : ℕ)
  | expireStray (now : Timestamp) (max_age : Duration)
  | dropStray
  /-- A hole opens, and its deadline starts. -/
  | openHole (ts : Timestamp)
  /-- A segment is too old to be believed. -/
  | countOld

namespace Op

/-- What an operation does. Also the candidate that it takes. -/
def exec : Op → Track → Track × Option Candidate
  | .anchor seq ts, t => (t.anchor seq ts, none)
  | .advanceTo off ts, t => (t.advanceTo off ts, none)
  | .recordSkip from_ to_, t => (t.recordSkip from_ to_, none)
  | .farAhead off payload ts max_ahead, t =>
    match t.farAhead off payload ts max_ahead with
    | (t, .resync c) => (t, some c)
    | (t, .held) => (t, none)
  | .farMissing start len ts max_ahead, t => t.farMissing start len ts max_ahead
  | .recordEvidence seq ts max_ahead, t => t.recordEvidence seq ts max_ahead
  | .fin seq ts max_ahead, t => t.fin seq ts max_ahead
  | .expireStray now max_age, t => (t.expireStray now max_age, none)
  | .dropStray, t => (t.dropStray, none)
  | .openHole ts, t => ({ t with last_progress := ts }, none)
  | .countOld, t => ({ t with out_of_window := t.out_of_window + 1 }, none)

variable {payload : List UInt8} {max_ahead off : ℕ} {ts : Timestamp}

theorem exec_farAhead {t t' : Track} {c : Candidate}
    (h : t.farAhead off payload ts max_ahead = (t', .resync c)) :
    (farAhead off payload ts max_ahead).exec t = (t', some c) := by
  rw [exec, h]

theorem exec_farAhead_held {t t' : Track} (h : t.farAhead off payload ts max_ahead = (t', .held)) :
    (farAhead off payload ts max_ahead).exec t = (t', none) := by
  rw [exec, h]

/-- The operation records proof that the stream goes on. -/
def proves : Op → Bool
  | .recordEvidence .. | .fin .. => true
  | _ => false

/-- The operation moves the stream. -/
def moves : Op → Bool
  | .advanceTo .. => true
  | _ => false

/-- What the operation holds has bytes, or stands for some. -/
def Carries : Op → Prop
  | .farAhead _ payload _ _ => payload ≠ []
  | .farMissing _ len _ _ => len ≠ 0
  | _ => True

end Op

/-- Every operation that records no proof is in `A`. -/
def Plain (A : Op → Track → Prop) : Prop := ∀ op t, op.proves = false → A op t

/-! ## The candidate -/

/-- What an operation does with the candidate: it stays, or is forgotten, grows, is replaced by a new
one that is counted, or is taken. -/
inductive Handles (t : Track) : Track × Option Candidate → Prop where
  | kept {t' : Track} (oow : t'.oow = t.oow) (counted : t.out_of_window ≤ t'.out_of_window)
      (resets : t'.origin_resets = t.origin_resets) : Handles t (t', none)
  | forgotten {t' : Track} (oow : t'.oow = none) (resets : t'.origin_resets = t.origin_resets) :
      Handles t (t', none)
  | extended {t' : Track} (c : Candidate) (len : ℕ) (old : t.oow = some c)
      (oow : t'.oow = some { c with missing := c.missing + len })
      (counted : t'.out_of_window = t.out_of_window)
      (resets : t'.origin_resets = t.origin_resets) : Handles t (t', none)
  | held {t' : Track} (c : Candidate) (oow : t'.oow = some c) (bytes : 0 < c.end_)
      (counted : t'.out_of_window = t.out_of_window + 1)
      (resets : t'.origin_resets = t.origin_resets) : Handles t (t', none)
  | taken {t' : Track} (c : Candidate) (old : t.oow = some c) (oow : t'.oow = none) :
      Handles t (t', some c)

variable (t : Track)

theorem handles_refl : t.Handles (t, none) := .kept rfl le_rfl rfl

theorem handles_anchor (seq : Seq) (ts : Timestamp) : t.Handles (t.anchor seq ts, none) := by
  unfold anchor
  split_ifs
  · exact t.handles_refl
  · exact .kept rfl le_rfl rfl

theorem handles_advanceTo (off : ℕ) (ts : Timestamp) : t.Handles (t.advanceTo off ts, none) := by
  by_cases h : off ≤ t.next_off
  · rw [advanceTo, if_pos h]
    exact t.handles_refl
  · rw [advanceTo, if_neg h]
    exact .kept rfl le_rfl rfl

theorem handles_recordEvidence (seq : Seq) (ts : Timestamp) (max_ahead : ℕ) :
    t.Handles (t.recordEvidence seq ts max_ahead) := by
  rcases t.recordEvidence_cases seq ts max_ahead with heq | ⟨c, -, hc, -, -, heq⟩ |
    ⟨off, -, -, -, -, heq⟩ <;> rw [heq]
  · exact t.handles_refl
  · exact .taken c hc rfl
  · exact .kept rfl le_rfl rfl

theorem handles_fin (seq : Seq) (ts : Timestamp) (max_ahead : ℕ) :
    t.Handles (t.fin seq ts max_ahead) := by
  rcases t.fin_cases seq ts max_ahead with heq | ⟨-, heq⟩ <;> rw [heq]
  · exact t.handles_refl
  · -- the FIN is recorded elsewhere than the candidate
    generalize hp : recordEvidence _ seq ts max_ahead = p
    have h := hp ▸ handles_recordEvidence _ seq ts max_ahead
    cases h with
    | kept oow counted resets => exact .kept oow counted resets
    | forgotten oow resets => exact .forgotten oow resets
    | extended c len old oow counted resets => exact .extended c len old oow counted resets
    | held c oow bytes counted resets => exact .held c oow bytes counted resets
    | taken c old oow => exact .taken c old oow

theorem handles_farMissing {start len : ℕ} (hlen : len ≠ 0) (ts : Timestamp)
    (max_ahead : ℕ) : t.Handles (t.farMissing start len ts max_ahead) := by
  rcases t.farMissing_cases start len ts max_ahead with ⟨c, hc, -, heq⟩ | ⟨c, hc, -, heq⟩ | heq <;>
    rw [heq]
  · exact .extended c len hc rfl rfl rfl
  · exact .taken c hc rfl
  · refine .held _ rfl ?_ rfl rfl
    simp only [Candidate.end_]
    omega

theorem handles_farAhead {off : ℕ} {payload : List UInt8} (hpay : payload ≠ [])
    (ts : Timestamp) (max_ahead : ℕ) :
    t.Handles ((Op.farAhead off payload ts max_ahead).exec t) := by
  unfold Op.exec
  rcases t.farAhead_cases off payload ts max_ahead with ⟨c, hc, -, heq⟩ | heq
  · simp only [heq]
    exact .taken c hc rfl
  · simp only [heq]
    refine .held _ rfl ?_ rfl rfl
    have := List.length_pos_iff.mpr hpay
    simp only [Candidate.end_]
    omega

/-- Every operation handles a candidate in one of these ways. -/
theorem Op.handles (op : Op) (hcr : op.Carries) (t : Track) : t.Handles (op.exec t) := by
  cases op with
  | anchor seq ts => exact t.handles_anchor seq ts
  | advanceTo off ts => exact t.handles_advanceTo off ts
  | recordSkip from_ to_ => exact .kept rfl le_rfl rfl
  | farAhead off payload ts max_ahead => exact t.handles_farAhead hcr ts max_ahead
  | farMissing start len ts max_ahead => exact t.handles_farMissing hcr ts max_ahead
  | recordEvidence seq ts max_ahead => exact t.handles_recordEvidence seq ts max_ahead
  | fin seq ts max_ahead => exact t.handles_fin seq ts max_ahead
  | expireStray now max_age =>
    rcases t.expireStray_eq now max_age with heq | heq <;> rw [Op.exec, heq]
    · exact t.handles_refl
    · exact .forgotten rfl rfl
  | dropStray => exact .forgotten rfl rfl
  | openHole ts => exact .kept rfl le_rfl rfl
  | countOld => exact .kept rfl (Nat.le_succ _) rfl

/-- The candidate was counted when it came, and it has an end past the start of the stream. -/
def StrayOk (t : Track) : Prop := ∀ c, t.oow = some c → 0 < t.out_of_window ∧ 0 < c.end_

theorem StrayOk.of_none {t : Track} (h : t.oow = none) : t.StrayOk := by
  intro c hc
  rw [h] at hc
  cases hc

/-- A candidate that is held stays well formed. -/
theorem StrayOk.handles {t : Track} (h : t.StrayOk) {p : Track × Option Candidate}
    (hp : t.Handles p) : p.1.StrayOk := by
  cases hp with
  | kept oow counted resets =>
    intro c hc
    exact ⟨(h c (oow ▸ hc)).1.trans_le counted, (h c (oow ▸ hc)).2⟩
  | forgotten oow resets => exact .of_none oow
  | extended c len old oow counted resets =>
    intro c' hc'
    obtain rfl := Option.some.inj (oow.symm.trans hc')
    obtain ⟨hpos, hend⟩ := h c old
    simp only [Candidate.end_] at hend ⊢
    omega
  | held c oow bytes counted resets =>
    intro c' hc'
    obtain rfl := Option.some.inj (oow.symm.trans hc')
    exact ⟨by dsimp only; omega, bytes⟩
  | taken c old oow => exact .of_none oow

/-- Only `advanceTo` moves the stream. -/
theorem Op.next_off_exec {op : Op} (h : op.moves = false) (t : Track) :
    (op.exec t).1.next_off = t.next_off := by
  cases op with
  | advanceTo off ts => cases h
  | anchor seq ts => exact t.next_off_anchor seq ts
  | farAhead off payload ts max_ahead =>
    unfold Op.exec
    rcases t.farAhead_cases off payload ts max_ahead with ⟨c, -, -, heq⟩ | heq <;> simp only [heq]
    rfl
  | farMissing start len ts max_ahead => exact (t.farMissing_keeps start len ts max_ahead).1
  | recordEvidence seq ts max_ahead => exact (t.proved_recordEvidence seq ts max_ahead).next_off
  | fin seq ts max_ahead => exact (t.proved_fin seq ts max_ahead).next_off
  | expireStray now max_age =>
    rcases t.expireStray_eq now max_age with heq | heq <;> rw [Op.exec, heq]
    rfl
  | recordSkip from_ to_ => rfl
  | dropStray => rfl
  | openHole ts => rfl
  | countOld => rfl

end Track

namespace Core

/-! ## Changes -/

/-- The stream has left a mark: a hole was reported, bytes were delivered, or bytes were dropped. -/
def Marked (c : Core) : Prop :=
  0 < c.gaps ∨ 0 < c.high_watermark ∨ 0 < c.bytes_dropped_oversize

/-- Nothing has happened to the stream. -/
structure Blank (c : Core) : Prop where
  stop : c.stop = none
  next_off : c.track.next_off = 0
  gap_bytes : c.gap_bytes = 0

/-- Only the output, and counters that say nothing of the stream position, have changed. -/
structure Notes (c c' : Core) : Prop where
  track : c'.track = c.track
  gaps : c'.gaps = c.gaps
  gap_bytes : c'.gap_bytes = c.gap_bytes
  confirmed : c'.ack_confirmed_gaps = c.ack_confirmed_gaps
  dropped : c'.bytes_dropped_oversize = c.bytes_dropped_oversize
  high_watermark : c.high_watermark ≤ c'.high_watermark
  stop : c'.stop = c.stop

/-- One change, where the operations on the stream position are in `A`. -/
inductive Change (A : Track.Op → Track → Prop) (c : Core) : Core → Prop where
  | note {c' : Core} (h : c.Notes c') : Change A c c'
  /-- An operation that neither moves the stream nor takes the candidate. -/
  | track (op : Track.Op) (allowed : A op c.track) (carries : op.Carries)
      (stays : op.moves = false) (leaves : (op.exec c.track).2 = none) :
      Change A c { c with track := (op.exec c.track).1 }
  | skip (off : ℕ) (ts : Timestamp) : Change A c (c.skipTo off ts)
  /-- The stream moves past bytes that are delivered or dropped. -/
  | move {c' : Core} (off : ℕ) (ts : Timestamp) (track : c'.track = c.track.advanceTo off ts)
      (gaps : c'.gaps = c.gaps) (confirmed : c'.ack_confirmed_gaps = c.ack_confirmed_gaps)
      (marked : c'.Marked) : Change A c c'
  /-- A stopped side passes over bytes. -/
  | jump (off : ℕ) (ts : Timestamp) (stopped : c.stop ≠ none) :
      Change A c { c with track := c.track.advanceTo off ts }

/-- What a call does, change by change. -/
inductive Changes (A : Track.Op → Track → Prop) : Core → Core → Prop where
  | refl (c : Core) : Changes A c c
  | step {c c₁ c' : Core} (first : Change A c c₁) (rest : Changes A c₁ c') : Changes A c c'
  /-- The candidate is taken, and the stream reaches its end or stops before. -/
  | resync {c c₁ c' : Core} (op : Track.Op) (cand : Candidate) (allowed : A op c.track)
      (carries : op.Carries) (stays : op.moves = false)
      (takes : (op.exec c.track).2 = some cand)
      (during : Changes A { c with track := (op.exec c.track).1 } c₁)
      (reached : c₁.stop ≠ none ∨ cand.end_ ≤ c₁.track.next_off) (rest : Changes A c₁ c') :
      Changes A c c'
  /-- A hole counts as confirmed, and the stream is moved or stops. -/
  | confirm {c c₁ c' : Core}
      (during : Changes A { c with ack_confirmed_gaps := c.ack_confirmed_gaps + 1 } c₁)
      (moved : c₁.stop ≠ none ∨ 0 < c₁.track.next_off) (rest : Changes A c₁ c') : Changes A c c'

variable {A : Track.Op → Track → Prop} {c c₁ c' : Core}

namespace Changes

theorem of_change (h : Change A c c') : Changes A c c' := .step h (.refl _)

theorem note (h : c.Notes c') : Changes A c c' := of_change (.note h)

/-- One after the other. -/
theorem trans (h : Changes A c c₁) (h' : Changes A c₁ c') : Changes A c c' := by
  induction h with
  | refl => exact h'
  | step first rest ih => exact .step first (ih h')
  | resync op cand allowed carries stays takes during reached rest _ ih =>
    exact .resync op cand allowed carries stays takes during reached (ih h')
  | confirm during moved rest _ ih => exact .confirm during moved (ih h')

/-- An operation that records no proof, moves nothing and takes nothing. -/
theorem op (hA : Plain A) (op : Op) (hpr : op.proves = false)
    (hcr : op.Carries) (hst : op.moves = false) (hlv : (op.exec c.track).2 = none) :
    Changes A c { c with track := (op.exec c.track).1 } :=
  of_change (.track op (hA op c.track hpr) hcr hst hlv)

/-- What follows an operation that moves nothing: nothing, or what goes on at the candidate that it
takes. -/
theorem exec (op : Op) (hal : A op c.track) (hcr : op.Carries)
    (hst : op.moves = false) {p : Track × Option Candidate} (hp : op.exec c.track = p) :
    (p.2 = none → Changes A c { c with track := p.1 }) ∧
      ∀ cand c', p.2 = some cand → Changes A { c with track := p.1 } c' →
        (c'.stop ≠ none ∨ cand.end_ ≤ c'.track.next_off) → Changes A c c' := by
  subst hp
  constructor
  · intro hlv
    exact of_change (.track op hal hcr hst hlv)
  · intro cand c' htk h hrc
    exact .resync op cand hal hcr hst htk h hrc (.refl _)

/-- Bytes are delivered, or dropped by a side that stops and forgets its candidate. -/
theorem deliver (hA : Plain A) (off : ℕ) (ts : Timestamp)
    (track : c'.track = c.track.advanceTo off ts ∨ c'.track = (c.track.advanceTo off ts).dropStray)
    (gaps : c'.gaps = c.gaps) (confirmed : c'.ack_confirmed_gaps = c.ack_confirmed_gaps)
    (marked : c'.Marked) : Changes A c c' := by
  rcases track with track | track
  · exact of_change (.move off ts track gaps confirmed marked)
  · have hmv : Change A c { c' with track := c.track.advanceTo off ts } :=
      .move off ts rfl gaps confirmed marked
    have hdr := op (c := { c' with track := c.track.advanceTo off ts }) hA .dropStray rfl trivial
      rfl rfl
    have heq : ({ c' with track := (c.track.advanceTo off ts).dropStray } : Core) = c' := by
      rw [← track]
    exact .step hmv (heq ▸ hdr)

/-- The stream never goes back. -/
theorem next_off_le (h : Changes A c c') : c.track.next_off ≤ c'.track.next_off := by
  induction h with
  | refl => exact le_rfl
  | step first rest ih =>
    refine le_trans ?_ ih
    cases first with
    | note h => rw [h.track]
    | track op allowed carries stays leaves => exact (Op.next_off_exec stays _).ge
    | skip off ts => exact (le_max_left _ _).trans_eq (next_off_skipTo _ off ts).symm
    | move off ts track gaps confirmed marked =>
      rw [track, next_off_advanceTo]
      exact le_max_left _ _
    | jump off ts stopped =>
      exact (le_max_left _ _).trans_eq (next_off_advanceTo _ off ts).symm
  | resync op cand allowed carries stays takes during reached rest ih ih' =>
    exact ((Op.next_off_exec stays _).ge.trans ih).trans ih'
  | confirm during moved rest ih ih' => exact le_trans ih ih'

end Changes

/-! ## The candidate -/

/-- One change keeps a candidate well formed. -/
theorem Change.strayOk (h : Change A c c') (hok : c.track.StrayOk) : c'.track.StrayOk := by
  cases h with
  | note h => exact h.track ▸ hok
  | track op allowed carries stays leaves => exact hok.handles (op.handles carries c.track)
  | skip off ts =>
    by_cases hle : off ≤ c.track.next_off
    · rwa [skipTo_of_le hle]
    · rw [skipTo_of_lt (not_le.mp hle)]
      exact StrayOk.handles (t := c.track.recordSkip c.track.next_off off) hok
        (handles_advanceTo _ off ts)
  | move off ts track gaps confirmed marked =>
    exact track ▸ hok.handles (c.track.handles_advanceTo off ts)
  | jump off ts stopped => exact hok.handles (c.track.handles_advanceTo off ts)

/-- So do all. -/
theorem Changes.strayOk (h : Changes A c c') (hok : c.track.StrayOk) : c'.track.StrayOk := by
  induction h with
  | refl => exact hok
  | step first rest ih => exact ih (first.strayOk hok)
  | resync op cand allowed carries stays takes during reached rest ih ih' =>
    exact ih' (ih (hok.handles (op.handles carries _)))
  | confirm during moved rest ih ih' => exact ih' (ih hok)

/-! ## Marks -/

theorem Notes.marked (h : c.Notes c') (hc : c.Marked) : c'.Marked := by
  obtain ⟨-, hgp, -, -, hdd, hhg, -⟩ := h
  unfold Marked at hc ⊢
  omega

/-- A mark stays in one change. -/
theorem Change.marked (h : Change A c c') (hc : c.Marked) : c'.Marked := by
  cases h with
  | note h => exact h.marked hc
  | track op allowed carries stays leaves => exact hc
  | skip off ts =>
    by_cases hle : off ≤ c.track.next_off
    · rwa [skipTo_of_le hle]
    · rw [skipTo_of_lt (not_le.mp hle)]
      exact .inl (Nat.succ_pos _)
  | move off ts track gaps confirmed marked => exact marked
  | jump off ts stopped => exact hc

/-- A mark stays. -/
theorem Changes.marked (h : Changes A c c') (hc : c.Marked) : c'.Marked := by
  induction h with
  | refl => exact hc
  | step first rest ih => exact ih (first.marked hc)
  | resync op cand allowed carries stays takes during reached rest ih ih' => exact ih' (ih hc)
  | confirm during moved rest ih ih' => exact ih' (ih hc)

/-- A stream without a mark is one to which nothing has happened. -/
theorem Change.blank (h : Change A c c') (hc : c.Marked ∨ c.Blank) : c'.Marked ∨ c'.Blank := by
  rcases hc with hc | hc
  · exact .inl (h.marked hc)
  cases h with
  | note h =>
    exact .inr ⟨h.stop.trans hc.stop, h.track ▸ hc.next_off, h.gap_bytes.trans hc.gap_bytes⟩
  | track op allowed carries stays leaves =>
    exact .inr ⟨hc.stop, (Op.next_off_exec stays c.track).trans hc.next_off, hc.gap_bytes⟩
  | skip off ts =>
    by_cases hle : off ≤ c.track.next_off
    · rw [skipTo_of_le hle]
      exact .inr hc
    · rw [skipTo_of_lt (not_le.mp hle)]
      exact .inl (.inl (Nat.succ_pos _))
  | move off ts track gaps confirmed marked => exact .inl marked
  | jump off ts stopped => exact absurd hc.stop stopped

/-- Without a mark nothing has happened. -/
theorem Changes.blank (h : Changes A c c') (hc : c.Marked ∨ c.Blank) : c'.Marked ∨ c'.Blank := by
  induction h with
  | refl => exact hc
  | step first rest ih => exact ih (first.blank hc)
  | resync op cand allowed carries stays takes during reached rest ih ih' =>
    refine ih' (ih (hc.imp id fun hb => ⟨hb.stop, ?_, hb.gap_bytes⟩))
    exact (Op.next_off_exec stays _).trans hb.next_off
  | confirm during moved rest ih ih' =>
    exact ih' (ih (hc.imp id fun hb => ⟨hb.stop, hb.next_off, hb.gap_bytes⟩))

/-- No candidate was used, and no hole was confirmed. -/
def Untallied (c : Core) : Prop := c.track.origin_resets = 0 ∧ c.ack_confirmed_gaps = 0

theorem Change.untallied (h : Change A c c') (hc : c.Marked ∨ c.Untallied) :
    c'.Marked ∨ c'.Untallied := by
  rcases hc with hc | hc
  · exact .inl (h.marked hc)
  cases h with
  | note h => exact .inr ⟨h.track ▸ hc.1, h.confirmed.trans hc.2⟩
  | track op allowed carries stays leaves =>
    refine .inr ⟨?_, hc.2⟩
    have hp := op.handles carries c.track
    generalize op.exec c.track = p at hp leaves
    cases hp with
    | kept oow counted resets => exact resets.trans hc.1
    | forgotten oow resets => exact resets.trans hc.1
    | extended cand len old oow counted resets => exact resets.trans hc.1
    | held cand oow bytes counted resets => exact resets.trans hc.1
    | taken cand old oow => cases leaves
  | skip off ts =>
    by_cases hle : off ≤ c.track.next_off
    · rw [skipTo_of_le hle]
      exact .inr hc
    · rw [skipTo_of_lt (not_le.mp hle)]
      exact .inl (.inl (Nat.succ_pos _))
  | move off ts track gaps confirmed marked => exact .inl marked
  | jump off ts stopped =>
    refine .inr ⟨?_, hc.2⟩
    rw [← hc.1]
    unfold advanceTo
    by_cases hle : off ≤ c.track.next_off
    · rw [if_pos hle]
    · rw [if_neg hle]

/-- A stream that has moved or stopped has left a mark. -/
theorem marked_of_reached (h : c.Marked ∨ c.Blank) {off : ℕ} (hpos : 0 < off)
    (hrc : c.stop ≠ none ∨ off ≤ c.track.next_off) : c.Marked := by
  refine h.resolve_right fun hb => ?_
  rcases hrc with hsp | hoff
  · exact hsp hb.stop
  · have := hb.next_off
    omega

/-- A candidate that was used, and a hole that was confirmed, leave a mark. -/
theorem Changes.untallied (h : Changes A c c') (hbl : c.Marked ∨ c.Blank)
    (hok : c.track.StrayOk) (hc : c.Marked ∨ c.Untallied) : c'.Marked ∨ c'.Untallied := by
  induction h with
  | refl => exact hc
  | step first rest ih => exact ih (first.blank hbl) (first.strayOk hok) (first.untallied hc)
  | @resync c c₁ c' op cand allowed carries stays takes during reached rest _ _ =>
    have hp := op.handles carries c.track
    have hbl1 : ({ c with track := (op.exec c.track).1 } : Core).Marked ∨
        ({ c with track := (op.exec c.track).1 } : Core).Blank :=
      hbl.imp id fun hb =>
        ⟨hb.stop, (Op.next_off_exec stays c.track).trans hb.next_off, hb.gap_bytes⟩
    have hend : 0 < cand.end_ := by
      generalize op.exec c.track = p at hp takes
      cases hp with
      | taken cand' old oow =>
        obtain rfl := Option.some.inj takes
        exact (hok _ old).2
      | kept | forgotten | extended | held => cases takes
    exact .inl (rest.marked (marked_of_reached (during.blank hbl1) hend reached))
  | @confirm c c₁ c' during moved rest _ _ =>
    have hbl1 := during.blank (hbl.imp id fun hb => ⟨hb.stop, hb.next_off, hb.gap_bytes⟩)
    exact .inl (rest.marked (marked_of_reached hbl1 Nat.one_pos moved))

/-! ## Between calls -/

/-- Nothing that is counted of the stream changes. -/
structure Rests (c c' : Core) : Prop where
  next_off : c'.track.next_off = c.track.next_off
  resets : c'.track.origin_resets = c.track.origin_resets
  gaps : c'.gaps = c.gaps
  gap_bytes : c'.gap_bytes = c.gap_bytes
  confirmed : c'.ack_confirmed_gaps = c.ack_confirmed_gaps
  high_watermark : c'.high_watermark = c.high_watermark
  dropped : c'.bytes_dropped_oversize = c.bytes_dropped_oversize

theorem Rests.refl (c : Core) : c.Rests c := ⟨rfl, rfl, rfl, rfl, rfl, rfl, rfl⟩

/-- A stream that left no mark has counted nothing else. -/
structure Noted (c : Core) : Prop where
  stray : c.track.StrayOk
  counters : c.Marked ∨ c.Untallied ∧ c.track.next_off = 0 ∧ c.gap_bytes = 0

theorem noted_new (config : Config) : (new config).Noted :=
  ⟨.of_none rfl, .inr ⟨⟨rfl, rfl⟩, rfl, rfl⟩⟩

/-- Whatever happened is noted. -/
theorem Noted.changes (h : c.Noted) (hsp : c.stop = none) (hch : Changes A c c') : c'.Noted := by
  have hbl : c.Marked ∨ c.Blank := h.counters.imp id fun hc => ⟨hsp, hc.2.1, hc.2.2⟩
  refine ⟨hch.strayOk h.stray, ?_⟩
  rcases hch.untallied hbl h.stray (h.counters.imp id And.left) with hm | hu
  · exact .inl hm
  · exact (hch.blank hbl).imp id fun hb => ⟨hu, hb.next_off, hb.gap_bytes⟩

theorem Noted.rests (h : c.Noted) (hrs : c.Rests c') (hsy : c'.track.StrayOk) : c'.Noted := by
  refine ⟨hsy, h.counters.imp (fun hm => ?_) fun hc => ⟨⟨?_, ?_⟩, ?_, ?_⟩⟩
  · unfold Marked at ⊢
    rw [hrs.gaps, hrs.high_watermark, hrs.dropped]
    exact hm
  · exact hrs.resets.trans hc.1.1
  · exact hrs.confirmed.trans hc.1.2
  · exact hrs.next_off.trans hc.2.1
  · exact hrs.gap_bytes.trans hc.2.2

end Core

/-- What `A` must allow for a call: the proof that the call records. -/
def Call.Grants (A : Track.Op → Track → Prop) (t : Track) : Call → Prop
  | .peerAck ack ts => ∀ max_ahead, A (.recordEvidence (ack - 1) ts max_ahead) t
  | .finSeen end_ ts => ∀ max_ahead, A (.fin end_ ts max_ahead) t
  -- cut bytes may be looked at again once the stream has gone on at a candidate
  | .missing seq len ts => ∀ max_ahead t, A (.recordEvidence (seq + len) ts max_ahead) t
  | _ => True

/-- Every call is granted. -/
theorem Call.grants_true (call : Call) (t : Track) : call.Grants (fun _ _ => True) t := by
  cases call <;> simp [Grants]

end Flowscope
