import Flowscope.Http2.Reader

/-!
# HTTP/2 bytes may be cut anywhere

`offer_cuts`: however the bytes of one direction are cut, and whenever events are taken in between,
the parser ends up as if it had been offered the bytes at once. And it never wedges: a direction never
holds as many bytes as it may (`Reachable.sound`), and bytes are refused only by a parser that says why
(`push_eq_zero`).
-/

namespace Flowscope.Http2

open List

namespace Http2Parser

/-! ## Feeding bytes -/

inductive ParserOp where
  | push (d : FlowSide) (data : Bytes)
  | nextEvent
  | fin (d : FlowSide)

def ParserOp.exec (p : Http2Parser) : ParserOp → Http2Parser
  | .push d data => (p.push d data).1
  | .nextEvent => p.nextEvent.1
  | .fin d => p.fin d

/-- The states that a parser with given limits can get into. -/
def Reachable (c : Http2Config) (p : Http2Parser) : Prop :=
  ∃ ops : List ParserOp, p = ops.foldl ParserOp.exec (withConfig c)

/-- What holds of a parser that can be reached. -/
structure Sound (c : Http2Config) (p : Http2Parser) : Prop where
  limited : Limited c p
  buffered : ∀ d, p.buffered d < c.max_buffered_bytes
  failed : p.isFailed → ∀ d, p.isFinished d
  error : p.error ≠ some .bufferOverflow

theorem Sound.withConfig {c : Http2Config} (hc : 24 ≤ c.max_buffered_bytes) :
    Sound c (withConfig c) where
  limited := ⟨rfl, fun d => by cases d <;> exact le_rfl⟩
  buffered d := by
    have hpos : 0 < c.max_buffered_bytes := by omega
    cases d <;> exact hpos
  failed h := by cases h
  error := by simp [Http2Parser.withConfig]

theorem Sound.fail {c : Http2Config} {p : Http2Parser} (h : Limited c p) (her : p.error = none)
    (hc : 24 ≤ c.max_buffered_bytes) {e : Http2Error} (he : e.OfFrame) : Sound c (p.fail e) where
  limited := ⟨h.config, fun d => by
    have := h.frames d
    cases d <;> exact this⟩
  buffered d := by
    have hpos : 0 < c.max_buffered_bytes := by omega
    cases d <;> exact hpos
  failed _ d := by cases d <;> rfl
  error := by
    unfold Http2Parser.fail
    rw [her]
    exact fun h => he (Option.some.inj h)

/-- Bytes of the direction are still taken. -/
def Takes (p : Http2Parser) (d : FlowSide) : Prop := ¬p.isFailed ∧ ¬p.isFinished d

section Push

variable {c : Http2Config} {p : Http2Parser} {d : FlowSide} {data : Bytes}

theorem push_of_not_takes (h : ¬p.Takes d) (data : Bytes) : p.push d data = (p, 0) := by
  unfold push
  rw [if_pos]
  by_contra hnot
  exact h ⟨fun hf => hnot (.inl hf), fun hd => hnot (.inr hd)⟩

theorem push_nil (h : Sound c p) : p.push d [] = (p, 0) := by
  have hbuf : (p.dir d).buf.length < c.max_buffered_bytes := h.buffered d
  unfold push
  rw [h.limited.config, if_neg (show ¬c.max_buffered_bytes - (p.dir d).buf.length = 0 by omega),
    length_nil, Nat.min_zero, if_neg (Nat.lt_irrefl 0), ite_self]

/-- Some bytes are taken, and the direction is driven with them. -/
theorem push_of_takes (h : Sound c p) (htk : p.Takes d) (hdt : data ≠ []) :
    ∃ k, 0 < k ∧ k ≤ data.length ∧ p.push d data = ((p.more d (data.take k)).drive d, k) := by
  have hbuf : (p.dir d).buf.length < c.max_buffered_bytes := h.buffered d
  have hlen : 0 < data.length := length_pos_iff.mpr hdt
  obtain ⟨k, hk⟩ : ∃ k, k = min (c.max_buffered_bytes - (p.dir d).buf.length) data.length :=
    ⟨_, rfl⟩
  refine ⟨k, by omega, by omega, ?_⟩
  unfold push
  rw [if_neg (show ¬(p.error.isSome ∨ (p.dir d).done) from not_or.mpr htk)]
  dsimp only
  rw [h.limited.config, ← hk, if_neg (by omega), if_pos (by omega)]
  rfl

/-- Nothing is taken of some bytes only by a parser that says why. -/
theorem push_eq_zero (h : Sound c p) (hdt : data ≠ []) (hzr : (p.push d data).2 = 0) :
    p.isFailed ∨ p.isFinished d := by
  by_contra hnot
  have htk : p.Takes d := not_or.mp hnot
  obtain ⟨k, hk, -, hps⟩ := push_of_takes h htk hdt
  rw [hps] at hzr
  omega

theorem limited_more (h : Limited c p) (d : FlowSide) (x : Bytes) : Limited c (p.more d x) := by
  unfold more
  exact h.modifyDir fun _ hs => hs

section

variable (h : Sound c p) (hc : 24 ≤ c.max_buffered_bytes)
include h hc

theorem Sound.drive_more (her : ¬p.isFailed) (x : Bytes) : Sound c ((p.more d x).drive d) := by
  have hnn : p.error = none := by simpa [isFailed] using her
  have hmr : (p.more d x).error = none := by
    rw [← hnn]
    cases d <;> rfl
  have hor : ((p.more d x).dir (opposite d)).buf = (p.dir (opposite d)).buf := by cases d <;> rfl
  have hsp := run_spec (d := d) hc (limited_more h.limited d x)
  rw [drive_eq_run]
  cases hrun : (reader d).run (p.more d x) with
  | ok q =>
    obtain ⟨hkt, hbuf⟩ := hsp.of_ok hrun
    refine ⟨hkt.limited, fun d' => ?_, fun hfl => ?_, ?_⟩
    · -- the direction itself, and the other one
      have hbf' : (p.dir (opposite d)).buf.length < c.max_buffered_bytes := h.buffered (opposite d)
      rw [← hor, ← hkt.buf] at hbf'
      cases d <;> cases d' <;> assumption
    · have hq : q.error = none := hkt.error.trans hmr
      rw [isFailed, outcome, hq] at hfl
      cases hfl
    · rw [outcome, hkt.error, hmr]
      simp
  | error r =>
    obtain ⟨q, e, rfl, he, hkt⟩ := hsp.of_error hrun
    exact Sound.fail hkt.limited (hkt.error.trans hmr) hc he

theorem Sound.push (d : FlowSide) (data : Bytes) : Sound c (p.push d data).1 := by
  by_cases htk : p.Takes d
  · by_cases hdt : data = []
    · rw [hdt, push_nil h]
      exact h
    · obtain ⟨k, -, -, hps⟩ := push_of_takes h htk hdt
      rw [hps]
      exact h.drive_more hc htk.1 _
  · rw [push_of_not_takes htk]
    exact h

theorem Sound.fin (d : FlowSide) : Sound c (p.fin d) where
  limited := h.limited.modifyDir fun _ hs => hs
  buffered d' := by
    have hpos : 0 < c.max_buffered_bytes := by omega
    have hbuf := h.buffered d'
    cases d <;> cases d' <;> assumption
  failed hfl d' := by
    have hsm : (p.fin d).isFailed = p.isFailed := by cases d <;> rfl
    have hdn := h.failed (hsm ▸ hfl) d'
    cases d <;> cases d' <;> first | rfl | exact hdn
  error := by
    have hsm : (p.fin d).error = p.error := by cases d <;> rfl
    rw [hsm]
    exact h.error

end

theorem Sound.nextEvent (h : Sound c p) : Sound c p.nextEvent.1 :=
  ⟨⟨h.limited.config, h.limited.frames⟩, h.buffered, h.failed, h.error⟩

theorem Reachable.sound (h : Reachable c p) (hc : 24 ≤ c.max_buffered_bytes) : Sound c p := by
  obtain ⟨ops, rfl⟩ := h
  induction ops using reverseRecOn with
  | nil => exact Sound.withConfig hc
  | append_singleton ops op ih =>
    rw [foldl_append]
    cases op with
    | push d data => exact ih.push hc d data
    | nextEvent => exact ih.nextEvent
    | fin d => exact ih.fin hc d

end Push

/-! ## Bytes in pieces -/

theorem push_le (p : Http2Parser) (d : FlowSide) (data : Bytes) :
    (p.push d data).2 ≤ data.length := by
  unfold push
  dsimp only
  split_ifs
  · exact Nat.zero_le _
  · exact Nat.zero_le _
  · exact min_le_right _ _
  · exact min_le_right _ _

/-- Offer bytes, and what was not taken of them again, until nothing is taken. -/
def offer (p : Http2Parser) (d : FlowSide) (data : Bytes) : Http2Parser :=
  if (p.push d data).2 = 0 then (p.push d data).1
  else offer (p.push d data).1 d (data.drop (p.push d data).2)
termination_by data.length
decreasing_by
  have := p.push_le d data
  rw [List.length_drop]
  omega

def takeEvents (p : Http2Parser) : ℕ → Http2Parser × List Http2Event
  | 0 => (p, [])
  | k + 1 =>
    let (p, e) := p.nextEvent
    let (p, taken) := p.takeEvents k
    (p, e.toList ++ taken)

/-- Offer bytes in pieces, and take some events after each piece: the parser, and the events taken. -/
def offerCuts (p : Http2Parser) (d : FlowSide) :
    List (Bytes × ℕ) → Http2Parser × List Http2Event
  | [] => (p, [])
  | (piece, k) :: cuts =>
    let (p, taken) := (p.offer d piece).takeEvents k
    let (p, taken') := p.offerCuts d cuts
    (p, taken ++ taken')

section Offer

variable {c : Http2Config} {p : Http2Parser} {d : FlowSide}

theorem offer_of_not_takes (h : ¬p.Takes d) (data : Bytes) : p.offer d data = p := by
  rw [offer, push_of_not_takes h, if_pos rfl]

theorem offer_nil (h : Sound c p) : p.offer d [] = p := by
  rw [offer, push_nil h, if_pos rfl]

/-- Driving a direction with some bytes and then with others is driving it with both. -/
theorem drive_append (p : Http2Parser) (x y : Bytes) :
    (p.more d (x ++ y)).drive d = match (reader d).run (p.more d x) with
      | .error r => r
      | .ok q => (q.more d y).drive d := by
  have hmr : (reader d).run (p.more d (x ++ y)) = _ :=
    (congrArg (reader d).run ((reader d).more_append p x y)).trans
      (Reader.run_more fun t _ _ => stableAt t y)
  rw [drive_eq_run, hmr]
  cases hrun : (reader d).run (p.more d x) with
  | error r =>
    show outcome ((reader d).run (p.more d x) >>= _) = r
    rw [hrun]
    rfl
  | ok q =>
    show outcome ((reader d).run (p.more d x) >>= _) = _
    rw [hrun]
    exact (drive_eq_run (q.more d y)).symm

section

variable (h : Sound c p) (hc : 24 ≤ c.max_buffered_bytes)
include h hc

/-- A direction that has been driven takes more, or has been given up. -/
theorem takes_of_run (htk : p.Takes d)
    (x : Bytes) : ((reader d).run (p.more d x)).Sat (fun q => q.Takes d) fun r => ¬r.Takes d := by
  have hsp := run_spec (d := d) hc (limited_more h.limited d x)
  apply hsp.mono
  · rintro q ⟨hkt, -⟩
    have her : (p.more d x).error = p.error := by cases d <;> rfl
    have hdn : ((p.more d x).dir d).done = (p.dir d).done := by cases d <;> rfl
    have hq : q.isFailed = p.isFailed := congrArg Option.isSome (hkt.error.trans her)
    have hq' : q.isFinished d = p.isFinished d := (hkt.done d).trans hdn
    exact ⟨by rw [hq]; exact htk.1, by rw [hq']; exact htk.2⟩
  · rintro r ⟨q, e, rfl, -, -⟩ hr
    apply hr.1
    unfold Http2Parser.fail
    cases q.error <;> rfl

theorem offer_eq_drive (htk : p.Takes d)
    {data : Bytes} (hdt : data ≠ []) : p.offer d data = (p.more d data).drive d := by
  induction hn : data.length using Nat.strong_induction_on generalizing p data with
  | _ n ih =>
    obtain ⟨k, hk, hle, hps⟩ := push_of_takes h htk hdt
    have hsd := h.drive_more (d := d) hc htk.1 (data.take k)
    have hrs := drive_append (d := d) p (data.take k) (data.drop k)
    rw [take_append_drop] at hrs
    rw [offer, hps, if_neg (by omega)]
    rw [hrs]
    rw [drive_eq_run] at hsd ⊢
    have htk' := takes_of_run h hc htk (data.take k)
    cases hrun : (reader d).run (p.more d (data.take k)) with
    | error r => exact offer_of_not_takes (htk'.of_error hrun) _
    | ok q =>
      rw [hrun] at hsd
      by_cases hdr : data.drop k = []
      · -- all the bytes were taken, and driving the direction again does nothing
        have hall : data.take k = data := by
          rw [← append_nil (data.take k), ← hdr, take_append_drop]
        rw [hrun, hdr, drive_eq_run] at hrs
        rw [hall] at hrun
        rw [hrun] at hrs
        rw [hdr, offer_nil hsd]
        exact hrs
      · exact ih _ (by rw [length_drop]; omega) hsd (htk'.of_ok hrun) hdr rfl

theorem Sound.offer (data : Bytes) : Sound c (p.offer d data) := by
  by_cases htk : p.Takes d
  · by_cases hdt : data = []
    · rw [hdt, offer_nil h]
      exact h
    · rw [offer_eq_drive h hc htk hdt]
      exact h.drive_more hc htk.1 data
  · rw [offer_of_not_takes htk]
    exact h

/-- Offering some bytes and then others is offering both. -/
theorem offer_offer (x y : Bytes) : (p.offer d x).offer d y = p.offer d (x ++ y) := by
  by_cases htk : p.Takes d
  · by_cases hx : x = []
    · rw [hx, offer_nil h, nil_append]
    by_cases hy : y = []
    · rw [hy, offer_nil (h.offer hc x), append_nil]
    have hsd := h.offer (d := d) hc x
    rw [offer_eq_drive h hc htk (append_ne_nil_of_left_ne_nil hx y), drive_append]
    rw [offer_eq_drive h hc htk hx, drive_eq_run] at hsd ⊢
    have htk' := takes_of_run h hc htk x
    cases hrun : (reader d).run (p.more d x) with
    | error r => exact offer_of_not_takes (htk'.of_error hrun) y
    | ok q =>
      rw [hrun] at hsd
      exact offer_eq_drive hsd hc (htk'.of_ok hrun) hy
  · rw [offer_of_not_takes htk, offer_of_not_takes htk, offer_of_not_takes htk]

end

theorem Sound.after (h : Sound c p) (before : List Http2Event) : Sound c (p.after before) :=
  ⟨⟨h.limited.config, h.limited.frames⟩, h.buffered, h.failed, h.error⟩

theorem offer_after (h : Sound c p) (hc : 24 ≤ c.max_buffered_bytes) (before : List Http2Event)
    (data : Bytes) : (p.after before).offer d data = (p.offer d data).after before := by
  by_cases htk : p.Takes d
  · by_cases hdt : data = []
    · rw [hdt, offer_nil h, offer_nil (h.after before)]
    · have hmr : (p.after before).more d data = (p.more d data).after before := by
        rw [more, more, setBuf_after, dir_after]
      rw [offer_eq_drive h hc htk hdt, offer_eq_drive (h.after before) hc htk hdt, hmr, drive_after]
  · have haf : ¬(p.after before).Takes d := htk
    rw [offer_of_not_takes htk, offer_of_not_takes haf]

theorem after_append (p : Http2Parser) (before before' : List Http2Event) :
    p.after (before ++ before') = (p.after before').after before := by
  simp only [after, append_assoc]

theorem takeEvents_after (p : Http2Parser) (k : ℕ) :
    (p.takeEvents k).1.after (p.takeEvents k).2 = p := by
  induction k generalizing p with
  | zero => rfl
  | succ k ih =>
    have hfr : p.nextEvent.1.after p.nextEvent.2.toList = p := by
      obtain ⟨config, request, response, streams, events, error⟩ := p
      cases events <;> rfl
    calc (p.takeEvents (k + 1)).1.after (p.takeEvents (k + 1)).2
        = (p.nextEvent.1.takeEvents k).1.after
            (p.nextEvent.2.toList ++ (p.nextEvent.1.takeEvents k).2) := rfl
      _ = p.nextEvent.1.after p.nextEvent.2.toList := by rw [after_append, ih]
      _ = p := hfr

theorem Sound.takeEvents (h : Sound c p) (k : ℕ) : Sound c (p.takeEvents k).1 := by
  induction k generalizing p with
  | zero => exact h
  | succ k ih => exact ih h.nextEvent

/-- However bytes are cut, and whenever events are taken, the parser gets to where it gets with the
bytes at once, and reports the same events. -/
theorem offerCuts_eq (h : Sound c p) (hc : 24 ≤ c.max_buffered_bytes) (cuts : List (Bytes × ℕ)) :
    (p.offerCuts d cuts).1.after (p.offerCuts d cuts).2 = p.offer d (cuts.flatMap Prod.fst) := by
  induction cuts generalizing p with
  | nil => exact (offer_nil h).symm
  | cons cut cuts ih =>
    obtain ⟨piece, k⟩ := cut
    have hpi := h.offer (d := d) hc piece
    obtain ⟨r, hr⟩ : ∃ r, r = (p.offer d piece).takeEvents k := ⟨_, rfl⟩
    have hsd : Sound c r.1 := hr ▸ hpi.takeEvents k
    have hbc : r.1.after r.2 = p.offer d piece := hr ▸ takeEvents_after (p.offer d piece) k
    calc (p.offerCuts d ((piece, k) :: cuts)).1.after (p.offerCuts d ((piece, k) :: cuts)).2
        = (r.1.offerCuts d cuts).1.after (r.2 ++ (r.1.offerCuts d cuts).2) := by rw [hr]; rfl
      _ = (r.1.offer d (cuts.flatMap Prod.fst)).after r.2 := by rw [after_append, ih hsd]
      _ = (p.offer d piece).offer d (cuts.flatMap Prod.fst) := by
          rw [← hbc, offer_after hsd hc]
      _ = p.offer d (((piece, k) :: cuts).flatMap Prod.fst) := by
          rw [offer_offer h hc, flatMap_cons]

/-- Parsing does not depend on how bytes are cut, and never wedges. From every state that can be
reached, bytes in pieces, with events taken in between, lead to the state and to the events that the
bytes lead to at once. And a push leaves fewer bytes than the direction may hold, does not fail for a
full buffer, and takes nothing of some bytes only if the parser says why. -/
theorem offer_cuts (c : Http2Config) (hc : 24 ≤ c.max_buffered_bytes) (p : Http2Parser)
    (hp : Reachable c p) (d : FlowSide) :
    (∀ cuts : List (Bytes × ℕ),
      (p.offerCuts d cuts).1.after (p.offerCuts d cuts).2 = p.offer d (cuts.flatMap Prod.fst)) ∧
    ∀ data : Bytes, (p.push d data).1.buffered d < c.max_buffered_bytes ∧
      (p.push d data).1.error ≠ some .bufferOverflow ∧
      (data ≠ [] → (p.push d data).2 = 0 → p.isFailed ∨ p.isFinished d) := by
  have hsd := hp.sound hc
  refine ⟨offerCuts_eq hsd hc, fun data => ?_⟩
  have hps := hsd.push hc d data
  exact ⟨hps.buffered d, hps.error, push_eq_zero hsd⟩

/-- A connection behind the preface. -/
def greeted : Http2Parser := ((withConfig .default).push .initiator PREFACE).1

/-- A frame with a whole field block, which ends its stream. -/
def getFrame : Bytes := frameBytes 0x1 0x5 1 [0x82]

/-- Behind the preface, a frame that is cut in its header, with the events taken after the second
piece. -/
theorem offer_cuts_frame :
    24 ≤ Http2Config.default.max_buffered_bytes ∧ Reachable .default greeted ∧
      (greeted.offer .initiator getFrame).events =
        [.head ⟨1, .initiator, [(ascii ":method", ascii "GET")], true⟩, .end_ 1 .initiator] ∧
      (greeted.offerCuts .initiator [(getFrame.take 5, 1), (getFrame.drop 5, 2)]).1.after
        (greeted.offerCuts .initiator [(getFrame.take 5, 1), (getFrame.drop 5, 2)]).2 =
          greeted.offer .initiator getFrame :=
  ⟨by decide, ⟨[.push .initiator PREFACE], rfl⟩, by decide +kernel,
    (offer_cuts .default (by decide) greeted ⟨[.push .initiator PREFACE], rfl⟩ .initiator).1
      [(getFrame.take 5, 1), (getFrame.drop 5, 2)]⟩

end Offer

end Http2Parser

end Flowscope.Http2
