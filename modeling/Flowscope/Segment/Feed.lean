import Flowscope.Segment.Walk

/-!
# Feeding a segment

A segment that is absorbed into the store, one that the stream has reached, one that is far away and
the candidate that it corroborates: feeding a segment from a state in the invariant (`Fine`) is a
step (`Goes`) to one. The exception is a segment that passes through, whose bytes go to the caller
and not to the ready buffer (`Core.Passed`).

Feeding a segment can use the candidate, which is then fed again, and can be held as a candidate
again if the flush before has moved the stream too far. That happens once at most, so that three
nested calls are enough (`Nests`), except where a `max_ahead` of `2^63` or more makes every segment
a candidate.

The store lies past the stream position as long as no candidate of `2^32` bytes or more is used
(`Track.Short`). After such a one, `skip_to(c.end())` can move the stream past a piece.
-/

namespace Flowscope

open Track Option Except

namespace SegmentBufferReassembler

variable {F : Frame} {E : Fault → Prop} {s s' s'' : SegmentBufferReassembler}

/-! ## Absorbing -/

variable {payload : List UInt8} {start : ℕ} {r : SegmentBufferReassembler × SegmentOutcome}
  {policy : TcpOverlapPolicy} {pass : Bool} {ts : Timestamp} {seq : Seq} {c : Candidate} {o : Ooo}

/-- A byte that is held after a segment was absorbed is the segment's or was held before. -/
theorem absorbedByte_eq_some {off : ℕ} {b : UInt8}
    (h : o.absorbedByte policy start payload off = some b) :
    (start ≤ off ∧ payload[off - start]? = some b) ∨ byteIn o.pieces off = some b := by
  unfold Ooo.absorbedByte at h
  split_ifs at h with htk
  · exact .inl ⟨htk.1.1, h⟩
  · exact .inr h

/-- The first byte of a segment is held after it was absorbed. -/
theorem absorbedByte_start
    (h : payload ≠ []) : o.absorbedByte policy start payload start ≠ none := by
  have hpos := List.length_pos_iff.mpr h
  unfold Ooo.absorbedByte
  split_ifs with htk
  · simpa using h
  · intro hnn
    exact htk ⟨⟨le_rfl, by omega⟩, .inl hnn⟩

/-- What is held before the segment: the store, if there is one. -/
theorem Held.getD (h : s.Held F) :
    (s.ooo.getD Ooo.new).Ok s.overlap_policy.bySeq ∧
      (∀ start d, (start, d) ∈ (s.ooo.getD Ooo.new).pieces → F.covered (start + d.len)) ∧
      ∀ off b, byteIn (s.ooo.getD Ooo.new).pieces off = some b → F.carried off b := by
  cases ho : s.ooo with
  | none =>
    refine ⟨Ooo.ok_new _, fun start d hm => ?_, fun off b hb => ?_⟩
    · exact absurd hm (OrdMap.not_mem_empty _)
    · exact absurd hb.symm (some_ne_none b)
  | some o =>
    exact ⟨h.store o ho, h.covered o ho, h.carried o ho⟩

/-- An offset that is held after a segment was absorbed is one of the segment's or lies in a piece
that was held before. -/
theorem absorb_origin (h : s.Held F) {off : ℕ} (hne : payload ≠ [])
    (hoff : byteIn ((s.ooo.getD Ooo.new).absorb s.overlap_policy s.max_ooo_buffer start
      payload).1.pieces off ≠ none) :
    (start ≤ off ∧ off < start + payload.length) ∨
      ∃ s0 d0, (s0, d0) ∈ (s.ooo.getD Ooo.new).pieces ∧ s0 ≤ off ∧ off < s0 + d0.len := by
  obtain ⟨hok, -, -⟩ := h.getD
  obtain ⟨-, hbyt, -⟩ := hok.absorb hne start s.max_ooo_buffer
  obtain ⟨b, hb⟩ := ne_none_iff_exists'.mp hoff
  rw [hbyt] at hb
  rcases absorbedByte_eq_some hb with ⟨hs, hb⟩ | hb
  · have := (List.getElem?_eq_some_iff.mp hb).1
    exact .inl ⟨hs, by omega⟩
  · refine .inr (hok.pieces.byteIn_ne_none.mp ?_)
    rw [hb]
    exact some_ne_none b

/-- Absorbing a segment keeps what is known of the store. -/
theorem absorb_held (h : s.Held F) (hsp : s.stop = none)
    (hne : payload ≠ []) (hcar : F.CarriesAt start payload)
    (hcov : F.covered (start + payload.length)) : (s.absorb start payload).Held F := by
  obtain ⟨hok, hpc, hby⟩ := h.getD
  obtain ⟨hok', hbyt, -⟩ := hok.absorb hne start s.max_ooo_buffer
  refine ⟨?_, ?_, ?_, ?_, fun hc => absurd hsp hc⟩ <;> intro o ho <;>
    obtain rfl := some.inj ho
  · exact hok'
  · have hfr : byteIn ((s.ooo.getD Ooo.new).absorb s.overlap_policy s.max_ooo_buffer start
        payload).1.pieces start ≠ none := by
      rw [hbyt]
      exact absorbedByte_start hne
    obtain ⟨s0, d0, hm, -⟩ := hok'.pieces.byteIn_ne_none.mp hfr
    exact OrdMap.size_pos hm
  · intro off b hb
    rw [hbyt] at hb
    rcases absorbedByte_eq_some hb with ⟨hs, hb⟩ | hb
    · have := hcar _ b hb
      rwa [Nat.add_sub_cancel' hs] at this
    · exact hby off b hb
  · intro s₁ d1 hm
    have hpos := hok'.pieces.nonempty s₁ d1 hm
    have hls : byteIn ((s.ooo.getD Ooo.new).absorb s.overlap_policy s.max_ooo_buffer start
        payload).1.pieces (s₁ + d1.len - 1) ≠ none :=
      hok'.pieces.byteIn_ne_none.mpr ⟨s₁, d1, hm, by omega, by omega⟩
    rcases absorb_origin h hne hls with
      hs | ⟨s0, d0, hm0, -, hs0⟩
    · exact F.covered_of_le _ _ (by omega) hcov
    · exact F.covered_of_le _ _ (by omega) (hpc s0 d0 hm0)

/-- The store then starts where it did, or where the segment does. -/
theorem absorb_from (h : s.Held F) {n : ℕ} (hne : payload ≠ [])
    (hn : n ≤ start) (hfm : s.From n) : (s.absorb start payload).From n := by
  intro o ho s₁ d1 hm
  obtain rfl := some.inj ho
  obtain ⟨hok, -, -⟩ := h.getD
  obtain ⟨hok', -, -⟩ := hok.absorb hne start s.max_ooo_buffer
  have hpos := hok'.pieces.nonempty s₁ d1 hm
  rcases absorb_origin h hne (hok'.pieces.byteIn_ne_none.mpr ⟨s₁, d1, hm, le_rfl, by omega⟩) with
    hs | ⟨s0, d0, hm0, hs0, -⟩
  · omega
  · cases hold : s.ooo with
    | none =>
      rw [hold] at hm0
      exact absurd hm0 (OrdMap.not_mem_empty _)
    | some o =>
      rw [hold] at hm0
      exact (hfm o hold s0 d0 hm0).trans hs0

/-- A step that takes in bytes at `start`. -/
structure Gains (F : Frame) (start : ℤ) (s s' : SegmentBufferReassembler) : Prop where
  goes : Goes F s s'
  fine : s'.Fine F
  calm : Calm s s'
  /-- The store stays past the stream position. -/
  ahead : s.Ahead → s'.Ahead
  /-- The store starts where it did, or where the bytes do. -/
  from_ : ∀ n : ℕ, n ≤ start → s.From n → s'.From n

theorem Steps.gains {start : ℤ} (h : Steps F s s') : Gains F start s s' :=
  ⟨h.goes, h.fine, h.calm, h.ahead, fun n _ hn => h.from_ n hn⟩

theorem Gains.trans {start : ℤ} (h : Gains F start s s') (h' : Gains F start s' s'') :
    Gains F start s s'' :=
  ⟨h.goes.trans h'.goes, h'.fine, h.calm.trans h'.calm, fun ha => h'.ahead (h.ahead ha),
    fun n hle hn => h'.from_ n hle (h.from_ n hle hn)⟩

theorem updateWatermark_steps (h : s.Fine F) : Steps F s s.updateWatermark :=
  Like.note_steps ⟨⟨rfl, rfl, rfl, rfl, rfl, rfl⟩, rfl, rfl, rfl⟩ h
    ⟨rfl, rfl, rfl, rfl, rfl, le_max_left _ _, rfl⟩

/-- A segment that is held, delivered as far as the stream reaches, and kept to the budget. -/
theorem takeIn_sat (h : s.Fine F) (hsp : s.stop = none) {data : List UInt8}
    (hne : data ≠ []) (hcar : F.CarriesAt start data) (hcov : F.covered (start + data.length))
    (ts : Timestamp) : (s.takeIn start data ts).Sat (fun t => Gains F start s t) E := by
  unfold takeIn
  dsimp only
  -- the hole opens now, or is open already
  obtain ⟨s₁, hs1⟩ : ∃ s₁, s₁ = if s.ooo.isSome then s else { s with track.last_progress := ts } :=
    ⟨_, rfl⟩
  have h₁ : Steps F s s₁ := by
    rw [hs1]
    split_ifs
    · exact .refl h
    · exact Like.steps ⟨⟨rfl, rfl, rfl, rfl, rfl, rfl⟩, rfl, rfl, rfl⟩ h
        (.op F.plain (.openHole ts) rfl trivial rfl rfl)
        (h.track.congr (F.window_congr s.track _ rfl rfl rfl h.track.window) rfl (.inl rfl)) id
        (.inl rfl)
  have hsp1 : s₁.stop = none := by
    rw [hs1]
    split_ifs <;> exact hsp
  rw [← hs1]
  obtain ⟨s2, hs2⟩ : ∃ s2, s2 = if start = s.track.next_off ∧ s.ooo.isSome then
      { s₁.absorb start data with holes_filled := (s₁.absorb start data).holes_filled + 1 }
    else s₁.absorb start data := ⟨_, rfl⟩
  rw [← hs2]
  have hlk : Like (s₁.absorb start data) s2 ∧ s₁.toCore.Notes s2.toCore := by
    rw [hs2]
    split_ifs <;> exact ⟨⟨⟨rfl, rfl, rfl, rfl, rfl, rfl⟩, rfl, rfl, rfl⟩,
      ⟨rfl, rfl, rfl, rfl, rfl, le_rfl, rfl⟩⟩
  obtain ⟨hlk, hnt⟩ := hlk
  have htr := hnt.track
  have hhl2 : s2.Held F := hlk.held (absorb_held h₁.fine.held hsp1 hne hcar hcov)
  have hsm : s₁.toCore.Same s2.toCore :=
    ⟨hlk.same.config, hlk.same.ready, hlk.same.next_off, hlk.same.gap_bytes,
      hlk.same.dropped, hlk.same.stop⟩
  refine Sat.bind ((deliverAll_sat ⟨hhl2, htr ▸ h₁.fine.track⟩ ts).imp fun s3 h₃ => ?_)
  refine Sat.bind ((enforceOooCap_sat h₃.1.fine ts).imp fun s4 h4 => ?_)
  have h24 := h₃.1.trans h4.1
  have hgo : Goes F s₁ s4 := by
    refine ⟨(Path.note hsm).trans h24.goes.path, .trans (.note hnt) h24.goes.changes,
      ⟨?_, ?_, ?_⟩, fun _ => h4.2, fun ha => ?_⟩
    · exact h24.goes.settings.1.trans hsm.config
    · exact h24.goes.settings.2.1.trans hlk.settings.1
    · exact h24.goes.settings.2.2.trans hlk.settings.2
    · exact h24.goes.anchored (htr ▸ ha)
  have hcl : Calm s₁ s4 := by
    have := h24.calm
    rwa [Calm, htr] at this
  have hgn : Gains F start s₁ s4 := by
    refine ⟨hgo, h4.1.fine, hcl, fun _ => h4.1.ahead h₃.2.1, fun n hle hn => ?_⟩
    exact h24.from_ n ((absorb_from h₁.fine.held hne (by omega) hn).of_eq hlk.ooo)
  exact (h₁.gains.trans hgn).trans (updateWatermark_steps h4.1.fine).gains

/-! ## Feeding -/

/-- What feeding a segment leads to: a step, or a step after which the segment passes through. -/
inductive Fed (F : Frame) (s : SegmentBufferReassembler) (payload : List UInt8) :
    SegmentBufferReassembler × SegmentOutcome → Prop where
  /-- The segment was taken in. -/
  | buffered {s' : SegmentBufferReassembler} (goes : Goes F s s') (fine : s'.Fine F) :
      Fed F s payload (s', .buffered)
  /-- The segment passes through, and nothing is held. -/
  | passed {s₁ s' : SegmentBufferReassembler} {skip : ℕ} (goes : Goes F s s₁)
      (passed : s₁.toCore.Passed F (payload.drop skip) s'.toCore) (ooo : s'.ooo = none)
      (settings : s'.overlap_policy = s₁.overlap_policy ∧ s'.max_ooo_buffer = s₁.max_ooo_buffer)
      (changes : s.toCore.Changes F.allows s'.toCore) (fine : s'.Fine F) :
      Fed F s payload (s', .passthrough skip)

theorem Fed.of_goes (h : Goes F s s') (hr : Fed F s' payload r) : Fed F s payload r := by
  cases hr with
  | buffered goes fine => exact .buffered (h.trans goes) fine
  | passed goes passed ooo settings changes fine =>
    exact .passed (h.trans goes) passed ooo settings (h.changes.trans changes) fine

/-- What feeding a segment inside the window, which starts at `start`, leads to. -/
structure Feeds (F : Frame) (s : SegmentBufferReassembler) (start : ℤ) (payload : List UInt8)
    (pass : Bool) (r : SegmentBufferReassembler × SegmentOutcome) : Prop where
  /-- A step, or a segment that passes through. -/
  fed : Fed F s payload r
  /-- It passes through only where that is asked for. -/
  kept : pass = false → r.2 = .buffered
  calm : Calm s r.1
  /-- The store stays past the stream position. -/
  ahead : s.Ahead → r.1.Ahead
  /-- The store starts where it did, or where the segment does. There is none if there was none and
  the stream has reached the segment. -/
  from_ : ∀ n : ℕ, n ≤ start ∨ start ≤ s.track.next_off ∧ s.ooo = none → s.From n → r.1.From n

theorem Steps.feeds {start : ℤ} (h : Steps F s s') : Feeds F s start payload pass (s', .buffered) :=
  ⟨.buffered h.goes h.fine, fun _ => rfl, h.calm, h.ahead, fun n _ => h.from_ n⟩

/-- A segment inside the window that reaches past the stream position. -/
theorem feedNew_sat (hE : s.rules.Timely E) (h : s.Fine F) (hsp : s.stop = none)
    (ha : s.track.anchored = true) (hpay : payload ≠ [])
    (hft : F.Fits seq payload) {start : ℤ} (hsr : start = s.track.offsetOf seq)
    (hend : (s.track.next_off : ℤ) < start + payload.length) (ts : Timestamp) (pass : Bool) :
    (s.feedNew start payload ts pass).Sat (Feeds F s start payload pass) E := by
  unfold feedNew
  dsimp only
  obtain ⟨s₁, hs1⟩ : ∃ s₁, s₁ = if start < s.track.next_off then
    { s with retransmits := s.retransmits + 1 } else s := ⟨_, rfl⟩
  have hlk : Like s s₁ ∧ s.toCore.Notes s₁.toCore := by
    rw [hs1]
    split_ifs <;> exact ⟨⟨⟨rfl, rfl, rfl, rfl, rfl, rfl⟩, rfl, rfl, rfl⟩,
      ⟨rfl, rfl, rfl, rfl, rfl, le_rfl, rfl⟩⟩
  obtain ⟨hlk, hnt⟩ := hlk
  have h₁ : Steps F s s₁ := hlk.note_steps h hnt
  have htr := hnt.track
  have hsp1 : s₁.stop = none := hlk.same.stop.trans hsp
  rw [← hs1, ← htr]
  obtain ⟨skip, hsk⟩ : ∃ n, n = ((s₁.track.next_off : ℤ) - start).toNat := ⟨_, rfl⟩
  obtain ⟨first, hfr⟩ : ∃ n, n = (max start s₁.track.next_off).toNat := ⟨_, rfl⟩
  rw [← hsk, ← hfr]
  rw [← htr] at hsr hend
  have hlen : (payload.drop skip).length = payload.length - skip := List.length_drop
  have hpos := List.length_pos_iff.mpr hpay
  have hne : payload.drop skip ≠ [] := List.ne_nil_of_length_pos (by omega)
  have hcar : F.CarriesAt first (payload.drop skip) :=
    hft.carriesAt h₁.fine.track.window (htr ▸ ha) (by omega)
  have hcov : F.covered (first + (payload.drop skip).length) := by
    have := (hft s₁.track h₁.fine.track.window (htr ▸ ha)).1
    rwa [← hsr, show (start + payload.length).toNat = first + (payload.drop skip).length by
      omega] at this
  -- the timers run on whatever was taken in
  have hth : ∀ s2, Gains F start s₁ s2 →
      (start ≤ s₁.track.next_off ∧ s₁.ooo = none → s2.ooo = none) →
      (do return (← s2.checkTimers ts, .buffered) :
        Result (SegmentBufferReassembler × SegmentOutcome)).Sat (Feeds F s start payload pass) E := by
    intro s2 h₂ hnn
    have hrl : s2.rules = s.rules :=
      congrArg Config.rules (h₂.goes.settings.1.trans h₁.goes.settings.1)
    refine Sat.bind ((checkTimers_sat (hrl ▸ hE) h₂.fine ts).imp fun s3 h₃ => ?_)
    have hgn := (h₁.gains.trans h₂).trans h₃.gains
    refine ⟨.buffered hgn.goes hgn.fine, fun _ => rfl, hgn.calm, hgn.ahead, fun n hn hfm => ?_⟩
    rcases hn with hn | hn
    · exact hgn.from_ n hn hfm
    · exact h₃.from_ n (.of_none (hnn ⟨htr ▸ hn.1, hlk.ooo.trans hn.2⟩))
  by_cases hdr : s₁.ooo.isNone ∧ first = s₁.track.next_off
  · rw [if_pos hdr]
    obtain ⟨hnn, hat⟩ := hdr
    have hooo : s₁.ooo = none := isNone_iff_eq_none.mp hnn
    rw [hat] at hcar hcov
    rw [hat]
    split_ifs with hps
    · simp only [Bool.and_eq_true] at hps
      have hmr : ({ s₁.toCore with
          track := s₁.track.advanceTo (s₁.track.next_off + (payload.drop skip).length) ts } :
            Core).notePassthrough (payload.drop skip).length |>.Marked :=
        .inr (.inl (lt_max_of_lt_right (List.length_pos_iff.mpr hne)))
      refine ⟨.passed h₁.goes ⟨hps.1.2, rfl, hsp1, rfl, ?_, hcar, hcov, rfl, rfl, rfl⟩ hooo
        ⟨rfl, rfl⟩ (h₁.goes.changes.trans (.of_change (.move _ ts rfl rfl rfl hmr)))
        ⟨.of_none hooo, h₁.fine.track.advanceTo hcov ts⟩, fun hc => ?_, ?_,
        fun _ => From.of_none hooo, fun _ _ _ => From.of_none hooo⟩
      · show (s₁.track.advanceTo _ ts).next_off = _
        simp
      · rw [hc] at hps
        exact absurd hps.1.1 Bool.false_ne_true
      · exact h₁.calm.trans (.inl (oow_advanceTo _ _ _))
    · obtain ⟨hgo, ht, hcl, -, hcs⟩ :=
        deliver_goes ts hsp1 hne h₁.fine.track hcar hcov rfl
      have hnn2 : (({ s₁ with track := s₁.track.advanceTo (s₁.track.next_off +
          (payload.drop skip).length) ts } : SegmentBufferReassembler).appendReady
            (payload.drop skip)).ooo = none := by
        rcases hcs with ⟨heq, -⟩ | ⟨heq, -⟩
        · exact heq.trans hooo
        · exact heq
      exact hth _ ⟨hgo, ⟨.of_none hnn2, ht⟩, hcl, fun _ => From.of_none hnn2,
        fun _ _ _ => From.of_none hnn2⟩ fun _ => hnn2
  · rw [if_neg hdr]
    refine Sat.bind ((takeIn_sat h₁.fine hsp1 hne hcar hcov ts).imp fun s2 h₂ => ?_)
    refine hth s2 ⟨h₂.goes, h₂.fine, h₂.calm, h₂.ahead, fun n hn => h₂.from_ n (by omega)⟩ ?_
    exact fun hc => absurd ⟨by simp [hc.2], by omega⟩ hdr

/-- What feeding a segment leads to. -/
structure FeedOk (F : Frame) (s : SegmentBufferReassembler) (seq : Seq) (payload : List UInt8)
    (pass : Bool) (r : SegmentBufferReassembler × SegmentOutcome) : Prop where
  /-- A step, or a segment that passes through. -/
  fed : Fed F s payload r
  /-- It passes through only where that is asked for. -/
  kept : pass = false → r.2 = .buffered
  /-- The store stays past the stream position, unless a long candidate was used. -/
  ahead : s.track.Short → s.Ahead → r.1.Ahead
  /-- A candidate held now is short, as long as what is fed is. -/
  short : s.track.Short → payload.length < 2^32 → r.1.track.Short
  /-- A segment becomes a candidate or goes to the store, not both. -/
  lone : s.track.anchored = true → s.track.oow = none → s.ooo = none →
    r.1.track.oow = none ∨ r.1.ooo = none
  /-- A segment in the window does not become a candidate. -/
  calm : s.track.anchored = true → s.track.oow = none →
    s.track.offsetOf seq - s.track.next_off ≤ asI64 s.rules.max_ahead → r.1.track.oow = none
  /-- The store starts where it did, or where the segment does. -/
  from_ : s.track.anchored = true → s.track.oow = none → ∀ n : ℕ, n ≤ s.track.offsetOf seq ∨
    s.track.offsetOf seq ≤ s.track.next_off ∧ s.ooo = none → s.From n → r.1.From n

/-- What using a candidate leads to. -/
structure Resynced (F : Frame) (s : SegmentBufferReassembler) (c : Candidate)
    (s' : SegmentBufferReassembler) : Prop where
  goes : Goes F s s'
  fine : s'.Fine F
  /-- The stream reaches the candidate's end, or stops. -/
  reached : s'.stop ≠ none ∨ c.end_ ≤ s'.track.next_off
  /-- The store is past the stream position, unless the candidate was long. -/
  ahead : c.data.length + c.missing < 2^32 → s'.Ahead
  /-- A candidate held now is short if that one was. -/
  short : c.data.length + c.missing < 2^32 → s'.track.Short
  /-- The candidate is held again, or goes to the store. -/
  lone : s'.track.oow = none ∨ s'.ooo = none
  /-- It is not held again where the stream has not reached it. -/
  calm : s.ooo = none → s.track.next_off ≤ c.off → s.rules.max_ahead < 2^63 → s'.track.oow = none

/-- The stream goes on at a candidate. -/
theorem resync_sat {feed : SegmentBufferReassembler → Seq → List UInt8 → Timestamp → Bool →
      Result (SegmentBufferReassembler × SegmentOutcome)}
    (hrf : F.Refeeds) (h : s.Fine F) (ha : s.track.anchored = true)
    (hoow : s.track.oow = none) (hc : F.CandidateOk c)
    (hfd : ∀ t, t.Fine F → t.track.anchored = true → t.track.oow = none →
      t.toConfig = s.toConfig → ∀ seq, F.Fits seq c.data →
        (feed t seq c.data ts false).Sat (FeedOk F t seq c.data false) E) :
    (resync feed s c ts).Sat (Resynced F s c) E := by
  refine Sat.bind ((flushOoo_sat h ts).imp fun s₁ ⟨h₁, hnn1, hsm1⟩ => ?_)
  have hcov : F.covered c.off :=
    F.covered_of_le _ _ (by rw [Candidate.end_]; omega) hc.2
  have h₂ := h₁.trans (skipTo_steps h₁.fine hnn1 hcov ts)
  have hle : c.off ≤ (s₁.skipTo c.off ts).track.next_off := by
    rw [next_off_skipTo]
    exact le_max_right _ _
  have hnn2 : (s₁.skipTo c.off ts).ooo = none := hnn1
  have hat : s.ooo = none → s.track.next_off ≤ c.off →
      (s₁.skipTo c.off ts).track.next_off = c.off := by
    intro hnn hle
    rw [next_off_skipTo, hsm1 hnn, max_eq_right hle]
  revert h₂ hle hnn2 hat
  generalize s₁.skipTo c.off ts = s2
  intro h₂ hle hnn2 hat
  have ha2 := h₂.goes.anchored ha
  have how2 : s2.track.oow = none := h₂.calm.elim (fun heq => heq.trans hoow) id
  refine Sat.bind ((hfd s2 h₂.fine ha2 how2 h₂.goes.settings.1 _
    (hrf _ c h₂.fine.track.window ha2 hc)).imp fun r hr => ?_)
  obtain ⟨s3, o⟩ := r
  obtain rfl : o = .buffered := hr.kept rfl
  have h₃ : Goes F s s3 ∧ s3.Fine F := by
    cases hr.fed with
    | buffered goes fine => exact ⟨h₂.goes.trans goes, fine⟩
  -- the candidate's bytes are delivered, or held past its end
  have hfm : c.data.length + c.missing < 2^32 → s3.From (c.end_ + 1) := by
    intro hlen
    refine (hr.from_ ha2 how2 (c.off + 2^32) ?_ (.of_none hnn2)).mono
      (by rw [Candidate.end_]; omega)
    rcases s2.track.offsetOf_seqOf hle with heq | hge
    · exact .inr ⟨by omega, hnn2⟩
    · exact .inl (by push_cast; omega)
  have hah3 : s3.Ahead := hr.ahead (.of_none how2) (From.of_none hnn2)
  have hsh3 : c.data.length + c.missing < 2^32 → s3.track.Short := fun hlen =>
    hr.short (.of_none how2) (by omega)
  have hln3 := hr.lone ha2 how2 hnn2
  have hcl3 : s.ooo = none → s.track.next_off ≤ c.off → s.rules.max_ahead < 2^63 →
      s3.track.oow = none := by
    intro hnn hbf hmax
    refine hr.calm ha2 how2 ?_
    rw [← hat hnn hbf, seqOf_next_off, offsetOf_next_seq,
      congrArg Config.rules h₂.goes.settings.1, asI64_of_lt hmax]
    omega
  dsimp only
  split_ifs with hsp
  · refine ⟨h₃.1.trans (skipTo_goes hc.2 ts), ⟨h₃.2.held.skipTo _ _, h₃.2.track.skipTo hc.2 ts⟩,
      .inr ?_, fun hlen o ho start d hm => ?_, fun hlen => (hsh3 hlen).of_eq (calm_skipTo _ _ _),
      hln3.imp (Core.oow_skipTo _ _ _).trans id,
      fun hn hb hmax => (Core.oow_skipTo _ _ _).trans (hcl3 hn hb hmax)⟩ <;> rw [next_off_skipTo]
    · exact le_max_right _ _
    have h1 := hah3 o ho start d hm
    have h2 := hfm hlen o ho start d hm
    omega
  · exact ⟨h₃.1, h₃.2, .inl fun hnn => hsp (by rw [hnn]; rfl), fun _ => hah3, hsh3,
      hln3, hcl3⟩

/-- A candidate that an operation takes, and the stream that goes on there. -/
theorem Resynced.goes_of_exec {track : Track}
    (h : Resynced F { s with track } c s') (op : Op) (hal : F.allows op s.track)
    (hcr : op.Carries) (hst : op.moves = false) (hp : op.exec s.track = (track, some c))
    (hlk : Like s { s with track })
    (ha : s.track.anchored = true → track.anchored = true) : Goes F s s' :=
  ⟨(Path.note hlk.same).trans h.goes.path,
    (Core.Changes.exec op hal hcr hst hp).2 c _ rfl h.goes.changes h.reached,
    h.goes.settings, h.goes.bounded, fun h' => h.goes.anchored (ha h')⟩

theorem anchor_steps (h : s.Fine F) (seq : Seq) (ts : Timestamp) :
    Steps F s { s with track := s.track.anchor seq ts } :=
  Like.steps ⟨⟨rfl, rfl, next_off_anchor _ _ _, rfl, rfl, rfl⟩, rfl, rfl, rfl⟩ h
    (.op F.plain (.anchor seq ts) rfl trivial rfl rfl) (h.track.anchor seq ts)
    (fun _ => anchored_anchor _ _ _)
    (.inl (oow_anchor _ _ _))

theorem anchor_eq (ha : s.track.anchored = true) (seq : Seq) (ts : Timestamp) :
    ({ s with track := s.track.anchor seq ts } : SegmentBufferReassembler) = s := by
  rw [anchor_of_anchored ha]

/-- A segment in the window. -/
theorem Feeds.feedOk
    (h : Feeds F s (s.track.offsetOf seq) payload pass r) : FeedOk F s seq payload pass r :=
  ⟨h.fed, h.kept, fun _ => h.ahead, fun hsh _ => hsh.of_eq h.calm,
    fun _ hoow _ => .inl (h.calm.elim (fun heq => heq.trans hoow) id),
    fun _ hoow _ => h.calm.elim (fun heq => heq.trans hoow) id, fun _ _ => h.from_⟩

/-- Counting an old segment. -/
theorem noteOld_steps (h : s.Fine F) (start end_ : ℤ) :
    Steps F s { s with toCore := s.toCore.noteOld start end_ } := by
  obtain ⟨hsm, ht, ha, hoow⟩ := Core.noteOld_spec h.track start end_
  have hch := s.toCore.noteOld_changes F.plain start end_
  revert hsm ht ha hoow hch
  generalize s.toCore.noteOld start end_ = c
  intro hsm ht ha hoow hch
  exact Like.steps ⟨hsm, rfl, rfl, rfl⟩ h hch ht (fun h => ha.trans h) (.inl hoow)

variable {depth : ℕ}

/-- An unanchored side is anchored first. -/
theorem feed_anchor (hsp : s.stop = none) (hpay : payload ≠ []) :
    s.feed (depth + 1) seq payload ts pass =
      ({ s with track := s.track.anchor seq ts } : SegmentBufferReassembler).feed (depth + 1) seq
        payload ts pass := by
  have hrun : ¬ (s.stop.isSome || payload.isEmpty) = true := by simp [hsp, hpay]
  rw [feed, feed, if_neg hrun, if_neg hrun,
    anchor_of_anchored (anchored_anchor s.track seq ts)]

/-- So many nested calls are enough, or too few are an accepted fault. A candidate is held again
only by a side that had a store, and then the side has none. -/
def Nests (E : Fault → Prop) (s : SegmentBufferReassembler) (depth : ℕ) : Prop :=
  E .recursion ∨ s.rules.max_ahead < 2^63 ∧
    (3 ≤ depth ∨ s.ooo = none ∧ 2 ≤ depth ∨ s.track.oow = none ∧ 1 ≤ depth)

theorem Nests.anchor (h : s.Nests E depth) (seq : Seq) (ts : Timestamp) :
    ({ s with track := s.track.anchor seq ts } : SegmentBufferReassembler).Nests E depth := by
  rw [Nests, oow_anchor]
  exact h

theorem nests_of_le (h : s.rules.Nested E) (hd : 3 ≤ depth) : s.Nests E depth :=
  h.symm.imp id fun hmax => ⟨hmax, .inl hd⟩

/-- After a candidate was used, one nested call less is enough. -/
theorem Nests.resynced (h : s.Nests E (depth + 1))
    (h' : Resynced F s' c s'') (hoow : s.track.oow = some c)
    (hbf : s.rules.max_ahead < 2^63 → s.track.next_off ≤ c.off) (hooo : s'.ooo = s.ooo)
    (hnx : s'.track.next_off = s.track.next_off) (hrl : s'.rules = s.rules) :
    s''.Nests E depth := by
  have hrl' : s''.rules = s.rules := (congrArg Config.rules h'.goes.settings.1).trans hrl
  refine h.imp id fun ⟨hmax, hdp⟩ => ⟨hrl' ▸ hmax, ?_⟩
  rcases hdp with hdp | ⟨hnn, hdp⟩ | ⟨hno, -⟩
  · rcases h'.lone with hln | hln
    · exact .inr (.inr ⟨hln, by omega⟩)
    · exact .inr (.inl ⟨hln, by omega⟩)
  · refine .inr (.inr ⟨h'.calm (hooo.trans hnn) ?_ (hrl ▸ hmax), by omega⟩)
    rw [hnx]
    exact hbf hmax
  · exact absurd (hoow.symm.trans hno) (some_ne_none c)

/-- What feeding leads to on the anchored side, it leads to. -/
theorem FeedOk.of_anchor
    (har : Steps F s { s with track := s.track.anchor seq ts })
    (hr : FeedOk F { s with track := s.track.anchor seq ts } seq payload pass r) :
    FeedOk F s seq payload pass r := by
  refine ⟨hr.fed.of_goes har.goes, hr.kept,
    fun hsh ha => hr.ahead (hsh.of_eq har.calm) (har.ahead ha),
    fun hsh => hr.short (hsh.of_eq har.calm), fun ha => ?_, fun ha => ?_, fun ha => ?_⟩
  · have := hr.lone
    rw [anchor_eq ha] at this
    exact this ha
  · have := hr.calm
    rw [anchor_eq ha] at this
    exact this ha
  · have := hr.from_
    rw [anchor_eq ha] at this
    exact this ha

/-- Feeding a segment. The induction is on the nested calls: the candidate that the segment
corroborates is fed first, and then the segment again. -/
theorem feed_sat (hrf : F.Refeeds) (depth : ℕ) : ∀ {s : SegmentBufferReassembler} {seq : Seq}
    {payload : List UInt8} {ts : Timestamp} {pass : Bool}, s.rules.Timely E → F.Places s.rules →
    s.Fine F → F.Fits seq payload → s.Nests E depth →
      (s.feed depth seq payload ts pass).Sat (FeedOk F s seq payload pass) E := by
  induction depth with
  | zero =>
    intro s seq payload ts pass _ _ _ _ hns
    refine hns.resolve_right fun hn => ?_
    omega
  | succ depth ih =>
    intro s0 seq payload ts pass hE hpl h0 hft hns
    rw [feed]
    split_ifs with hid
    · exact ⟨.buffered (.refl s0) h0, fun _ => rfl, fun _ => id, fun hs _ => hs,
        fun _ hoow _ => .inl hoow, fun _ hoow _ => hoow, fun _ _ _ _ => id⟩
    obtain ⟨hsp, hpay⟩ : s0.stop = none ∧ payload ≠ [] := by simpa using hid
    have har := anchor_steps h0 seq ts
    have ha := anchored_anchor s0.track seq ts
    replace hns := hns.anchor seq ts
    refine Sat.imp ?_ fun _ => FeedOk.of_anchor har
    -- the rest is about the anchored side
    extract_lets s start end_ next max_ahead old
    have h : s.Fine F := har.fine
    split_ifs with hfar hold
    · obtain ⟨hcar, hcov⟩ := hft.asU64 hpl h.track.window ha hfar
      have hok := h.track.farAhead hcar hcov ts s.rules.max_ahead
      rcases s.track.farAhead_cases (asU64 (s.track.offsetOf seq)) payload ts s.rules.max_ahead
        with ⟨c, hoow, hnr, heq⟩ | heq
      · rw [heq] at hok ⊢
        have hlk : Like s { s with track := s.track.takeStray } :=
          ⟨⟨rfl, rfl, rfl, rfl, rfl, rfl⟩, rfl, rfl, rfl⟩
        refine Sat.bind ((resync_sat hrf (hlk.fine h hok.1) ha rfl (hok.2 c rfl).1
          fun t ht _ htw hcn seq' hft' => ?_).imp fun s1 h1 => ?_)
        · have hrl : t.rules = s.rules := congrArg Config.rules hcn
          refine ih (hrl ▸ hE) (hrl ▸ hpl) ht hft' (hns.imp id fun hn => ?_)
          refine ⟨hrl ▸ hn.1, .inr (.inr ⟨htw, ?_⟩)⟩
          rcases hn.2 with hn | hn | hn
          · omega
          · omega
          · exact absurd (hoow.symm.trans hn.1) (some_ne_none c)
        · have hrl : s1.rules = s.rules := congrArg Config.rules h1.goes.settings.1
          have hbf : s.rules.max_ahead < 2^63 → s.track.next_off ≤ c.off := by
            intro hmax
            rw [show max_ahead = _ from asI64_of_lt hmax] at hfar
            rw [asU64_of_nonneg (by omega)] at hnr
            omega
          refine (ih (hrl ▸ hE) (hrl ▸ hpl) h1.fine hft
            (hns.resynced h1 hoow hbf rfl rfl rfl)).imp fun r hr => ?_
          have hgo := h1.goes_of_exec (.farAhead _ payload ts _) (F.plain _ _ rfl) hpay rfl
            (Op.exec_farAhead heq) hlk id
          refine ⟨hr.fed.of_goes hgo, fun _ => hr.kept rfl,
            fun hsh _ => ?_, fun hsh => ?_, fun _ hno => ?_, fun _ hno => ?_,
            fun _ hno => ?_⟩
          · exact hr.ahead (h1.short (hsh c hoow)) (h1.ahead (hsh c hoow))
          · exact hr.short (h1.short (hsh c hoow))
          all_goals exact absurd (hoow.symm.trans hno) (some_ne_none c)
      · rw [heq] at hok ⊢
        have hlk : Like s { s with track := { s.track with
            out_of_window := s.track.out_of_window + 1
            oow := some ⟨asU64 (s.track.offsetOf seq), payload, ts, 0⟩ } } :=
          ⟨⟨rfl, rfl, rfl, rfl, rfl, rfl⟩, rfl, rfl, rfl⟩
        have hhl := (Core.Changes.exec (.farAhead _ payload ts _) (F.plain _ _ rfl) hpay rfl
          (Op.exec_farAhead_held heq)).1 rfl
        refine ⟨.buffered (hlk.goes hhl id) (hlk.fine h hok.1), fun _ => rfl,
          fun _ => hlk.ahead, fun _ hlen c hc => ?_, fun _ _ => .inr, fun _ _ hnr => ?_,
          fun _ _ n _ hn => hn.of_eq rfl⟩
        · obtain rfl := some.inj hc
          exact hlen
        · exact absurd hfar (not_lt.mpr hnr)
    · have h1 : Steps F s { s with toCore := old } := noteOld_steps h start end_
      clear_value old
      have hrl : old.rules = s.rules := congrArg Config.rules h1.goes.settings.1
      rw [← hrl] at hE
      refine Sat.bind ((checkTimers_sat hE h1.fine ts).imp fun s2 h2 => ?_)
      exact (h1.trans h2.toSteps).feeds.feedOk
    · exact (feedNew_sat (s := s) hE h hsp ha hpay hft rfl (not_le.mp hold) ts pass).imp
        fun r hr => hr.feedOk

end SegmentBufferReassembler

end Flowscope
