import Flowscope.Session.Hearing

/-!
# Probing

While a signature has not decided about a flow, its outputs are kept for the parser to come, as far
as there is room. The parser that is pinned when the signature matches is in the state of one that was
active from the start, and got of each side a first part of the outputs (`keptOf`) and then one gap
for the rest (`droppedOf`).

A stop travels with an output. It is lost with an output that is not kept: a parser that reads on
after the gap goes on reading the side. `probing_transparent_iff` gives the exact condition.
-/

namespace Flowscope.Session

open List Probe

variable {K P M F : Type}

namespace Probe

/-- Both probes have kept and lost the same. -/
structure SameLog (p q : Probe) : Prop where
  replay : p.replay = q.replay
  replay_bytes : p.replay_bytes = q.replay_bytes
  kept : p.kept = q.kept
  lost : p.lost = q.lost

theorem SameLog.keeps {p q : Probe} (h : p.SameLog q) (side : FlowSide) (stream : Stream) :
    p.Keeps side stream ↔ q.Keeps side stream := by
  rw [Keeps, Keeps, h.kept, h.lost, h.replay_bytes]

theorem SameLog.record {p q : Probe} (h : p.SameLog q) (cx : Ctx K) (stream : Stream) :
    (p.record cx stream).SameLog (q.record cx stream) := by
  rw [Probe.record, Probe.record]
  by_cases hkp : q.Keeps cx.side stream
  · rw [if_pos ((h.keeps _ _).mpr hkp), if_pos hkp]
    exact ⟨by rw [h.replay], by rw [h.replay_bytes], by rw [h.kept], h.lost⟩
  · rw [if_neg (mt (h.keeps _ _).mp hkp), if_neg hkp]
    exact ⟨h.replay, h.replay_bytes, h.kept, by rw [h.lost]⟩

theorem readPrefix_sameLog (p : Probe) (side : FlowSide) (stream : Stream) :
    (p.readPrefix side stream).SameLog p := by
  rw [readPrefix]
  split <;> exact ⟨rfl, rfl, rfl, rfl⟩

/-- The signature has no influence on what is kept. -/
theorem step_sameLog {p q : Probe} (h : p.SameLog q) (cx : Ctx K) (stream : Stream)
    (signature : List UInt8 → SignatureMatch) (max_probe_packets : ℕ) :
    (p.step cx stream signature max_probe_packets).1.SameLog (q.record cx stream) := by
  have hrd := p.readPrefix_sameLog cx.side stream
  apply SameLog.record
  exact ⟨hrd.replay.trans h.replay, hrd.replay_bytes.trans h.replay_bytes,
    hrd.kept.trans h.kept, hrd.lost.trans h.lost⟩

/-- Record outputs one after another. -/
def recordAll (p : Probe) : List (Ctx K × Stream) → Probe
  | [] => p
  | (cx, stream) :: rest => (p.record cx stream).recordAll rest

/-- The outputs that are kept for replay. -/
def keptOf (p : Probe) : List (Ctx K × Stream) → List (Ctx K × Stream)
  | [] => []
  | (cx, stream) :: rest =>
    if p.Keeps cx.side stream then (cx, stream) :: (p.record cx stream).keptOf rest
    else (p.record cx stream).keptOf rest

/-- The outputs of which only the number of bytes is kept. -/
def droppedOf (p : Probe) : List (Ctx K × Stream) → List (Ctx K × Stream)
  | [] => []
  | (cx, stream) :: rest =>
    if p.Keeps cx.side stream then (p.record cx stream).droppedOf rest
    else (cx, stream) :: (p.record cx stream).droppedOf rest

/-- The probe after outputs of which the last one, and none before it, makes the signature match. -/
def matchAfter (signature : List UInt8 → SignatureMatch) (max_probe_packets : ℕ) (p : Probe) :
    List (Ctx K × Stream) → Option Probe
  | [] => none
  | (cx, stream) :: rest =>
    let (p, verdict) := p.step cx stream signature max_probe_packets
    match verdict with
    | .match_ => if rest.isEmpty then some p else none
    | .undecided => matchAfter signature max_probe_packets p rest
    | .reject => none

/-- An output in the log. -/
def entryOf (o : Ctx K × Stream) : FlowSide × Orientation × Timestamp × StreamChunks :=
  (o.1.side, o.1.orientation, o.1.ts, o.2.toChunks)

/-- The bytes of outputs, data and gaps. -/
def spannedAll (outputs : List (Ctx K × Stream)) : ℕ := (outputs.map fun o => spanned o.2).sum

variable {p q : Probe} {outputs : List (Ctx K × Stream)} {cx : Ctx K} {r : Probe}

theorem record_of_keeps {stream : Stream} (h : p.Keeps cx.side stream) :
    p.record cx stream =
      { p with
        kept := p.kept.set cx.side true
        replay_bytes := p.replay_bytes + stream.len
        replay := p.replay ++ [entryOf (cx, stream)] } := by
  rw [record, if_pos h]
  rfl

theorem record_of_not_keeps {stream : Stream} (h : ¬p.Keeps cx.side stream) :
    p.record cx stream =
      { p with lost := p.lost.set cx.side (p.lost.get cx.side + spanned stream) } := by
  rw [record, if_neg h]

variable {signature : List UInt8 → SignatureMatch} {side : FlowSide} {max_probe_packets : ℕ}

theorem matchAfter_cons {stream : Stream} {rest : List (Ctx K × Stream)}
    (h : p.matchAfter signature max_probe_packets ((cx, stream) :: rest) = some r) :
    (rest = [] ∧ p.step cx stream signature max_probe_packets = (r, .match_)) ∨
      ∃ s, p.step cx stream signature max_probe_packets = (s, .undecided) ∧
        s.matchAfter signature max_probe_packets rest = some r := by
  rw [matchAfter] at h
  rcases hs : p.step cx stream signature max_probe_packets with ⟨s, verdict⟩
  rw [hs] at h
  cases verdict with
  | match_ =>
    obtain ⟨hrs, rfl⟩ : rest = [] ∧ s = r := by simpa using h
    exact .inl ⟨hrs, rfl⟩
  | reject => exact absurd h (by simp)
  | undecided => exact .inr ⟨s, rfl, h⟩

theorem matchAfter_sameLog (h : p.SameLog q)
    (hr : p.matchAfter signature max_probe_packets outputs = some r) :
    r.SameLog (q.recordAll outputs) := by
  induction outputs generalizing p q with
  | nil => simp [matchAfter] at hr
  | cons o rest ih =>
    obtain ⟨cx, stream⟩ := o
    have hstp := step_sameLog h cx stream signature max_probe_packets
    obtain ⟨rfl, heq⟩ | ⟨s, heq, hrs⟩ := matchAfter_cons hr
    · rw [heq] at hstp
      exact hstp
    · rw [heq] at hstp
      exact ih hstp hrs

theorem ne_nil_of_matchAfter (h : p.matchAfter signature max_probe_packets outputs = some r) :
    outputs ≠ [] := by
  rintro rfl
  simp [matchAfter] at h

/-- The log holds what was kept, in order of arrival. -/
theorem replay_recordAll :
    (p.recordAll outputs).replay = p.replay ++ (p.keptOf outputs).map entryOf := by
  induction outputs generalizing p with
  | nil => simp [recordAll, keptOf]
  | cons o rest ih =>
    rw [recordAll, ih, keptOf]
    split_ifs with hkp
    · rw [record_of_keeps hkp]
      simp
    · rw [record_of_not_keeps hkp]

/-- What was not kept is counted for its side. -/
theorem lost_recordAll (side : FlowSide) :
    (p.recordAll outputs).lost.get side =
      p.lost.get side + spannedAll (ofSide side (p.droppedOf outputs)) := by
  induction outputs generalizing p with
  | nil => simp [recordAll, droppedOf, spannedAll]
  | cons o rest ih =>
    obtain ⟨cx, stream⟩ := o
    rw [recordAll, ih, droppedOf]
    split_ifs with hkp
    · rw [record_of_keeps hkp]
    · rw [record_of_not_keeps hkp]
      by_cases hsd : cx.side = side
      · rw [ofSide_cons_same hsd, ← hsd]
        simp [spannedAll, add_assoc]
      · rw [ofSide_cons_other hsd, Sides.get_set_of_ne _ (Ne.symm hsd)]

/-- Nothing more of the side will be kept. -/
def Full (p : Probe) (side : FlowSide) : Prop :=
  p.kept.get side = true ∧ (0 < p.lost.get side ∨ PROBE_REPLAY_BYTE_CAP < p.replay_bytes)

theorem Full.not_keeps (h : p.Full side) (stream : Stream) : ¬p.Keeps side stream := by
  obtain ⟨hkt, hfu⟩ := h
  rintro (hnn | ⟨hlo, hrm⟩)
  · rw [hkt] at hnn
    exact absurd hnn (by simp)
  · omega

/-- An output that is not kept is the last word about its side. -/
theorem full_of_not_keeps {stream : Stream} (h : ¬p.Keeps cx.side stream) :
    (p.record cx stream).Full cx.side := by
  have hlen : stream.len ≤ spanned stream := Nat.le_add_right _ _
  rw [record_of_not_keeps h]
  rw [Keeps, not_or, Bool.not_eq_false] at h
  refine ⟨h.1, ?_⟩
  rw [Sides.get_set]
  dsimp only
  omega

theorem Full.record (h : p.Full side) (cx : Ctx K) (stream : Stream) :
    (p.record cx stream).Full side := by
  obtain ⟨hkt, hfu⟩ := h
  by_cases hsd : cx.side = side
  · subst hsd
    exact full_of_not_keeps (Full.not_keeps ⟨hkt, hfu⟩ stream)
  · by_cases hkp : p.Keeps cx.side stream
    · rw [record_of_keeps hkp]
      refine ⟨?_, ?_⟩
      · rw [Sides.get_set_of_ne _ (Ne.symm hsd), hkt]
      · dsimp only
        omega
    · rw [record_of_not_keeps hkp]
      refine ⟨hkt, ?_⟩
      rw [Sides.get_set_of_ne _ (Ne.symm hsd)]
      exact hfu

theorem Full.split (h : p.Full side) :
    ofSide side (p.keptOf outputs) = [] ∧
      ofSide side (p.droppedOf outputs) = ofSide side outputs := by
  induction outputs generalizing p with
  | nil => exact ⟨rfl, rfl⟩
  | cons o rest ih =>
    obtain ⟨cx, stream⟩ := o
    obtain ⟨hkt, hdd⟩ := ih (h.record cx stream)
    rw [keptOf, droppedOf]
    by_cases hsd : cx.side = side
    · rw [if_neg (hsd ▸ h.not_keeps stream), if_neg (hsd ▸ h.not_keeps stream),
        ofSide_cons_same hsd, ofSide_cons_same hsd, hdd]
      exact ⟨hkt, rfl⟩
    · split_ifs with hkp
      · rw [ofSide_cons_other hsd, ofSide_cons_other hsd]
        exact ⟨hkt, hdd⟩
      · rw [ofSide_cons_other hsd, ofSide_cons_other hsd]
        exact ⟨hkt, hdd⟩

/-- Of each side, a first part of the outputs is kept. -/
theorem ofSide_split (side : FlowSide) :
    ofSide side outputs = ofSide side (p.keptOf outputs) ++ ofSide side (p.droppedOf outputs) := by
  induction outputs generalizing p with
  | nil => rfl
  | cons o rest ih =>
    obtain ⟨cx, stream⟩ := o
    have hrs := @ih (p.record cx stream)
    rw [keptOf, droppedOf]
    split_ifs with hkp
    · by_cases hsd : cx.side = side
      · rw [ofSide_cons_same hsd, ofSide_cons_same hsd, hrs]
        rfl
      · rw [ofSide_cons_other hsd, ofSide_cons_other hsd, hrs]
    · by_cases hsd : cx.side = side
      · obtain ⟨hkt, hdd⟩ := @Full.split _ _ rest _ (full_of_not_keeps hkp)
        rw [ofSide_cons_same hsd, ofSide_cons_same hsd, ← hsd, hkt, hdd]
        rfl
      · rw [ofSide_cons_other hsd, ofSide_cons_other hsd, hrs]

theorem keptOf_subset : p.keptOf outputs ⊆ outputs := by
  induction outputs generalizing p with
  | nil => exact List.Subset.refl _
  | cons o rest ih =>
    rw [keptOf]
    split
    · exact cons_subset_cons _ ih
    · exact subset_cons_of_subset _ ih

/-- Something is dropped only when the outputs do not fit. -/
theorem cap_lt_of_dropped (hlo : p.lost.get side = 0)
    (h : ofSide side (p.droppedOf outputs) ≠ []) :
    PROBE_REPLAY_BYTE_CAP < p.replay_bytes + (outputs.map fun o => o.2.len).sum := by
  induction outputs generalizing p with
  | nil => exact absurd rfl h
  | cons o rest ih =>
    obtain ⟨cx, stream⟩ := o
    rw [droppedOf] at h
    rw [map_cons, sum_cons]
    split_ifs at h with hkp
    · rw [record_of_keeps hkp] at h
      have hcap := ih (by exact hlo) h
      dsimp only at hcap ⊢
      omega
    · by_cases hsd : cx.side = side
      · rw [Keeps, hsd] at hkp
        dsimp only
        omega
      · rw [ofSide_cons_other hsd, record_of_not_keeps hkp] at h
        have hcap := ih (by rw [Sides.get_set_of_ne _ (Ne.symm hsd)]; exact hlo) h
        dsimp only at hcap ⊢
        omega

end Probe

/-! ## The replay -/

variable (stream : Stream)

/-- A copy of an output is heard like the output. -/
theorem iter_toChunks : stream.toChunks.iter = stream.iter := by
  cases stream with
  | chunks c => rfl
  | bytes b => cases b <;> rfl

theorem stop_toChunks : stream.toChunks.stop = stream.stop := by
  cases stream <;> rfl

theorem isEmpty_toChunks : stream.toChunks.isEmpty = stream.isEmpty := by
  cases stream with
  | chunks c => rfl
  | bytes b => cases b <;> rfl

/-- An output, as it is fed once the flow has matched. -/
def replayAt (cx : Ctx K) (o : Ctx K × Stream) : Ctx K × Stream := replayOf cx (Probe.entryOf o)

theorem ofSide_map_replayAt (side : FlowSide) (cx : Ctx K) (outputs : List (Ctx K × Stream)) :
    ofSide side (outputs.map (replayAt cx)) = (ofSide side outputs).map (replayAt cx) := by
  rw [ofSide, filter_map]
  rfl

theorem heard_map_replayAt (cx : Ctx K) (outputs : List (Ctx K × Stream)) :
    heard (outputs.map (replayAt cx)) = heard outputs := by
  induction outputs with
  | nil => rfl
  | cons o rest ih =>
    obtain ⟨cx', stream⟩ := o
    have hcs : callOf (replayAt cx (cx', stream)).1 = callOf cx' := by
      funext chunk
      cases chunk <;> rfl
    have hir : (replayAt cx (cx', stream)).2.iter = stream.iter := iter_toChunks stream
    have hsp : (replayAt cx (cx', stream)).2.stop = stream.stop := stop_toChunks stream
    simp only [map_cons, heard, ih, hcs, hir, hsp]

theorem stops_map_replayAt (cx : Ctx K) (outputs : List (Ctx K × Stream)) :
    Stops (outputs.map (replayAt cx)) ↔ Stops outputs := by
  simp only [Stops, mem_map]
  have hsp : ∀ o : Ctx K × Stream, (replayAt cx o).2.stop = o.2.stop := fun o =>
    stop_toChunks o.2
  simp [hsp]

/-- The call that reports `n` bytes as missing, if there are any. -/
def gapCall (cx : Ctx K) (side : FlowSide) (n : ℕ) : List ParserCall :=
  if n = 0 then [] else [.gap side n cx.ts]

section

variable (side : FlowSide) (cx : Ctx K) (lost : Sides ℕ)

theorem ofSide_lostGaps :
    ∃ orientation, ofSide side (lostGaps cx lost) =
      if lost.get side = 0 then []
      else [({ cx with side := side, orientation := orientation },
        .chunks (StreamChunks.new.pushGap (lost.get side)))] := by
  refine ⟨if side = cx.side then cx.orientation else cx.orientation.flipped, ?_⟩
  by_cases hi : lost.get .initiator = 0 <;> by_cases hr : lost.get .responder = 0
  all_goals cases side <;> simp [lostGaps, ofSide, hi, hr]

theorem heard_lostGaps :
    heard (ofSide side (lostGaps cx lost)) = gapCall cx side (lost.get side) := by
  obtain ⟨orientation, heq⟩ := ofSide_lostGaps side cx lost
  rw [heq, gapCall]
  split_ifs with hlo
  · rfl
  · simp [heard, callOf, Stream.iter, StreamChunks.iter, StreamChunks.pushGap, hlo,
      StreamChunks.walk, StreamChunks.new, pushMark]

theorem not_stops_lostGaps : ¬Stops (ofSide side (lostGaps cx lost)) := by
  obtain ⟨orientation, heq⟩ := ofSide_lostGaps side cx lost
  rw [heq]
  by_cases hlo : lost.get side = 0
  · simp [hlo, Stops]
  · simp [hlo, Stops, Stream.stop, StreamChunks.pushGap, StreamChunks.new]

end

/-- What was kept and the gaps for the rest, as the pinned parser is fed them. -/
def resumed (last : Ctx K) (outputs : List (Ctx K × Stream)) : List (Ctx K × Stream) :=
  (Probe.new.keptOf outputs).map (replayAt last) ++
    lostGaps last ⟨Probe.spannedAll (ofSide .initiator (Probe.new.droppedOf outputs)),
      Probe.spannedAll (ofSide .responder (Probe.new.droppedOf outputs))⟩

section

variable (side : FlowSide) (last : Ctx K) (outputs : List (Ctx K × Stream))

theorem stops_resumed :
    Stops (ofSide side (resumed last outputs)) ↔
      Stops (ofSide side (new.keptOf outputs)) := by
  rw [resumed, ofSide_append, stops_append, ofSide_map_replayAt, stops_map_replayAt]
  exact or_iff_left (not_stops_lostGaps side last _)

theorem heard_resumed :
    heard (ofSide side (resumed last outputs)) =
      heard (ofSide side (new.keptOf outputs)) ++
        if Stops (ofSide side (new.keptOf outputs)) then []
        else gapCall last side (spannedAll (ofSide side (new.droppedOf outputs))) := by
  have hlo : (⟨spannedAll (ofSide .initiator (new.droppedOf outputs)),
      spannedAll (ofSide .responder (new.droppedOf outputs))⟩ : Sides ℕ).get side =
      spannedAll (ofSide side (new.droppedOf outputs)) := by
    cases side <;> rfl
  rw [resumed, ofSide_append, ofSide_map_replayAt]
  by_cases hss : Stops (ofSide side (new.keptOf outputs))
  · rw [heard_append_of_stops ((stops_map_replayAt _ _).mpr hss), heard_map_replayAt,
      if_pos hss, append_nil]
  · rw [heard_append_of_not_stops (mt (stops_map_replayAt _ _).mp hss), heard_map_replayAt,
      if_neg hss, heard_lostGaps, hlo]

end

/-- The parser is fed at least the first output. -/
theorem resumed_ne_nil (last : Ctx K) {outputs : List (Ctx K × Stream)} (h : outputs ≠ []) :
    resumed last outputs ≠ [] := by
  cases outputs with
  | nil => exact absurd rfl h
  | cons o rest =>
    obtain ⟨cx, stream⟩ := o
    have hfr : new.Keeps cx.side stream := .inl (Sides.get_both _ _)
    simp [resumed, keptOf, hfr]

/-! ## Runs of the core -/

namespace SessionCore

variable [DecidableEq K] {S : SessionParser P M} {newParser : F → K → F × P}
  {core : SessionCore K F P} {key : K} {ports : Ports} {outputs : List (Ctx K × Stream)}

/-- The outputs are those of one flow, and each of them says something. -/
def OutputsOf (key : K) (outputs : List (Ctx K × Stream)) : Prop :=
  ∀ o ∈ outputs, o.1.key = key ∧ o.2.isEmpty = false

/-- A flow after its parser was fed. -/
def flowOf (a : Option (Active P)) : SessionFlow P := a.elim .closed .active

/-- A run says what feeding its parser says, and leaves the flow as that leaves it. -/
def Leaves (key : K) (run : SessionCore K F P × List (Note K M))
    (fed : Option (Active P) × List (Note K M)) : Prop :=
  run.2 = fed.2 ∧ run.1.flows.lookup key = some (flowOf fed.1)

theorem onStream_of_lookup {cx : Ctx K} {stream : Stream} {state : SessionFlow P}
    (h : core.flows.lookup cx.key = some state) (hst : stream.isEmpty = false) :
    core.onStream S newParser cx ports stream = core.advance S newParser cx stream state := by
  simp [onStream, hst, h]

/-- A closed flow stays closed, and nothing is heard of it. -/
theorem onStreams_closed (h : core.flows.lookup key = some .closed)
    (hout : OutputsOf key outputs) :
    Leaves key (core.onStreams S newParser ports outputs) (none, []) := by
  induction outputs generalizing core with
  | nil => exact ⟨rfl, h⟩
  | cons o rest ih =>
    obtain ⟨⟨rfl, hst⟩, hrs⟩ := forall_mem_cons.mp hout
    simp only [onStreams, onStream_of_lookup h hst]
    exact ih (AList.lookup_insert _) hrs

theorem onStreams_active {a : Active P} (h : core.flows.lookup key = some (.active a))
    (hout : OutputsOf key outputs) :
    Leaves key (core.onStreams S newParser ports outputs) (feedAll S a outputs) := by
  induction outputs generalizing core a with
  | nil => exact ⟨rfl, h⟩
  | cons o rest ih =>
    obtain ⟨cx, stream⟩ := o
    obtain ⟨⟨rfl, hst⟩, hrs⟩ := forall_mem_cons.mp hout
    simp only [onStreams, onStream_of_lookup h hst, advance]
    obtain ⟨hcl, heq⟩ | ⟨hon, heq⟩ := feedAll_cons S a cx stream rest
    · obtain ⟨hnil, hlk⟩ := @onStreams_closed K P M F _ S newParser
        { core with flows := core.flows.insert cx.key .closed } cx.key ports rest
        (AList.lookup_insert _) hrs
      simp only [heq, hcl, if_true, hnil, append_nil]
      exact ⟨rfl, hlk⟩
    · obtain ⟨hnt, hlk⟩ := @ih
        { core with flows := core.flows.insert cx.key (.active (a.feed S cx stream).1) }
        (a.feed S cx stream).1 (AList.lookup_insert _) hrs
      simp only [heq, hon, Bool.false_eq_true, if_false, hnt]
      exact ⟨rfl, hlk⟩

/-- A core that wants every flow feeds a new one to a new parser. -/
theorem onStreams_all (hsel : core.selector = .all) (h : core.flows.lookup key = none)
    (hout : OutputsOf key outputs) (hne : outputs ≠ []) :
    Leaves key (core.onStreams S newParser ports outputs)
      (feedAll S (.new (newParser core.factory key).2) outputs) := by
  -- the first output finds the flow as if it had been there before
  obtain ⟨core', hcr'⟩ : ∃ core' : SessionCore K F P, core' =
      ⟨(newParser core.factory key).1, .all,
        core.flows.insert key (.active (.new (newParser core.factory key).2))⟩ := ⟨_, rfl⟩
  have hlk : core'.flows.lookup key = some (.active (.new (newParser core.factory key).2)) := by
    rw [hcr']
    exact AList.lookup_insert _
  have hsm : core.onStreams S newParser ports outputs =
      core'.onStreams S newParser ports outputs := by
    cases outputs with
    | nil => exact absurd rfl hne
    | cons o rest =>
      obtain ⟨cx, stream⟩ := o
      obtain ⟨⟨rfl, hst⟩, -⟩ := forall_mem_cons.mp hout
      have hfr : core.onStream S newParser cx ports stream =
          core'.onStream S newParser cx ports stream := by
        simp [onStream, hst, h, hsel, Selector.admits, advance, hcr']
      simp only [onStreams, hfr]
  rw [hsm]
  exact onStreams_active hlk hout

/-- The outputs up to the match are pinned. -/
theorem onStreams_matched {signature : List UInt8 → SignatureMatch} {max_probe_packets : ℕ}
    (hsel : core.selector = .signature signature max_probe_packets) {p r : Probe}
    (h : core.flows.lookup key = some (.probing p) ∨ core.flows.lookup key = none ∧ p = .new)
    (hout : OutputsOf key outputs)
    (hmatch : p.matchAfter signature max_probe_packets outputs = some r) :
    ∃ last stream, outputs.getLast? = some (last, stream) ∧
      Leaves key (core.onStreams S newParser ports outputs)
        (pin S (newParser core.factory key).2 r last) := by
  induction outputs generalizing core p with
  | nil => simp [matchAfter] at hmatch
  | cons o rest ih =>
    obtain ⟨cx, stream⟩ := o
    obtain ⟨⟨rfl, hst⟩, hrs⟩ := forall_mem_cons.mp hout
    have hfr : core.onStream S newParser cx ports stream =
        core.advance S newParser cx stream (.probing p) := by
      obtain hlk | ⟨hnn, rfl⟩ := h
      · exact onStream_of_lookup hlk hst
      · simp [onStream, hst, hnn, hsel, Selector.admits]
    simp only [onStreams, hfr, advance, hsel]
    obtain ⟨rfl, hstp⟩ | ⟨s, hstp, hlr⟩ := matchAfter_cons hmatch
    · refine ⟨cx, stream, rfl, ?_⟩
      simp only [hstp, onStreams, append_nil]
      exact ⟨rfl, AList.lookup_insert _⟩
    · obtain ⟨last, stream', hls, hnt, hlk⟩ := @ih
        ⟨core.factory, .signature signature max_probe_packets,
          core.flows.insert cx.key (.probing s)⟩ rfl s
        (.inl (AList.lookup_insert _)) hrs hlr
      refine ⟨last, stream', ?_, ?_⟩
      · rw [getLast?_cons, hls]
        rfl
      · simp only [hstp]
        exact ⟨hnt, hlk⟩

/-- The flow's parser is closed or has stopped reading the side. -/
def ReadsNoMore (side : FlowSide) : Option (SessionFlow P) → Prop
  | some .closed => True
  | some (.active a) => a.stopped.get side = true
  | _ => False

theorem readsNoMore_flowOf {side : FlowSide} {a : Option (Active P)} :
    ReadsNoMore side (some (flowOf a)) ↔ ∀ b, a = some b → b.stopped.get side = true := by
  cases a with
  | none => simp [flowOf, ReadsNoMore]
  | some b => simp [flowOf, ReadsNoMore]

omit [DecidableEq K] in
/-- A parser that always reads on reads a side on of which no stop was kept. -/
theorem not_readsNoMore (hS : S.Transparent) {side : FlowSide} (parser : P) (last : Ctx K)
    (h : ¬Stops (ofSide side (new.keptOf outputs))) :
    ¬ReadsNoMore side (some (flowOf (feedAll S (.new parser) (resumed last outputs)).1)) := by
  obtain ⟨b, hb, hrds⟩ := feedAll_reads_on hS (Active.stopped_new parser side)
    (mt (stops_resumed side last outputs).mp h)
  rw [readsNoMore_flowOf]
  intro hob
  rw [hob b hb] at hrds
  exact absurd hrds (by simp)

omit [DecidableEq K] in
theorem outputsOf_resumed {last : Ctx K} (hls : last.key = key) (hout : OutputsOf key outputs) :
    OutputsOf key (resumed last outputs) := by
  intro o ho
  obtain hkt | hgap := mem_append.mp ho
  · obtain ⟨o', ho', rfl⟩ := mem_map.mp hkt
    refine ⟨hls, ?_⟩
    rw [show (replayAt last o').2.isEmpty = o'.2.isEmpty from isEmpty_toChunks o'.2]
    exact (hout o' (keptOf_subset ho')).2
  · obtain ⟨side, -, hsd⟩ := mem_filterMap.mp hgap
    split at hsd
    · exact absurd hsd (by simp)
    · rename_i hne
      obtain rfl := Option.some.inj hsd
      refine ⟨hls, ?_⟩
      simp [Stream.isEmpty, StreamChunks.isEmpty, StreamChunks.pushGap, hne, StreamChunks.new,
        pushMark]

/-- A flow that is pinned after `outputs`, the last of them at `last`, is as if its parser had been
active from the start and had got only what was kept, and the gaps. Of each side that is a first part
of the outputs, all of them if they fit, and one gap for exactly the bytes of the rest. -/
structure PinnedLikeActive (S : SessionParser P M) (newParser : F → K → F × P)
    (core : SessionCore K F P) (ports : Ports) (key : K) (last : Ctx K)
    (outputs : List (Ctx K × Stream)) : Prop where
  notes : (core.onStreams S newParser ports outputs).2 =
    (onStreams S newParser { core with selector := .all } ports (resumed last outputs)).2
  flow : (core.onStreams S newParser ports outputs).1.flows.lookup key =
    (onStreams S newParser { core with selector := .all } ports
      (resumed last outputs)).1.flows.lookup key
  first_part : ∀ side, ofSide side outputs =
    ofSide side (Probe.new.keptOf outputs) ++ ofSide side (Probe.new.droppedOf outputs)
  cap : ∀ side, ofSide side (Probe.new.droppedOf outputs) ≠ [] →
    PROBE_REPLAY_BYTE_CAP < (outputs.map fun o => o.2.len).sum
  /-- Whatever the parser does, it hears nothing else. -/
  hears : ∀ side, callsOn side (core.onStreams S newParser ports outputs).2 <+:
    heard (ofSide side (Probe.new.keptOf outputs)) ++
      gapCall last side (Probe.spannedAll (ofSide side (Probe.new.droppedOf outputs)))
  /-- A parser that always reads on hears all of it, unless a stop stands before the gap. -/
  hears_all : S.Transparent → ∀ side,
    callsOn side (core.onStreams S newParser ports outputs).2 =
      heard (ofSide side (Probe.new.keptOf outputs)) ++
        if Stops (ofSide side (Probe.new.keptOf outputs)) then []
        else gapCall last side (Probe.spannedAll (ofSide side (Probe.new.droppedOf outputs)))
  /-- So does one that was active from the start, for all outputs. -/
  active_hears_all : S.Transparent → ∀ side,
    callsOn side
      (onStreams S newParser { core with selector := .all } ports outputs).2 =
      heard (ofSide side outputs)

section Matched

variable {signature : List UInt8 → SignatureMatch} {max_probe_packets : ℕ}
  (hsel : core.selector = .signature signature max_probe_packets)
  (hnew : core.flows.lookup key = none) (hout : OutputsOf key outputs) {probe : Probe}
  (hmatch : Probe.new.matchAfter signature max_probe_packets outputs = some probe)

include hsel hnew hout hmatch in
/-- The pinned parser is fed what `resumed` lists. -/
theorem onStreams_resumed :
    ∃ last stream, outputs.getLast? = some (last, stream) ∧
      Leaves key (core.onStreams S newParser ports outputs)
        (feedAll S (.new (newParser core.factory key).2) (resumed last outputs)) := by
  obtain ⟨last, stream, hls, hlv⟩ := onStreams_matched hsel (.inr ⟨hnew, rfl⟩) hout hmatch
  have hlog : probe.SameLog (new.recordAll outputs) :=
    matchAfter_sameLog ⟨rfl, rfl, rfl, rfl⟩ hmatch
  have hrp : probe.replay = (new.keptOf outputs).map entryOf := by
    rw [hlog.replay, replay_recordAll]
    rfl
  have hlo : ∀ side, probe.lost.get side =
      spannedAll (ofSide side (new.droppedOf outputs)) := by
    intro side
    rw [hlog.lost, lost_recordAll]
    simp [new]
  have hsi : probe.lost = ⟨spannedAll (ofSide .initiator (new.droppedOf outputs)),
      spannedAll (ofSide .responder (new.droppedOf outputs))⟩ := by
    rw [← hlo .initiator, ← hlo .responder]
    rfl
  rw [pin, hrp, hsi, map_map] at hlv
  exact ⟨last, stream, hls, hlv⟩

end Matched

/-- Probing is transparent, except for stops: one seen on a side is obeyed by the pinned parser if
some output that carries a stop of the side is kept, and a parser that always reads on obeys it only
then. -/
theorem probing_transparent_iff (S : SessionParser P M) (newParser : F → K → F × P)
    (core : SessionCore K F P) (ports : Ports) {signature : List UInt8 → SignatureMatch}
    {max_probe_packets : ℕ} (hsel : core.selector = .signature signature max_probe_packets)
    {key : K} (hnew : core.flows.lookup key = none) {outputs : List (Ctx K × Stream)}
    (hout : OutputsOf key outputs) {probe : Probe}
    (hmatch : Probe.new.matchAfter signature max_probe_packets outputs = some probe) :
    (∃ last stream, outputs.getLast? = some (last, stream) ∧
      PinnedLikeActive S newParser core ports key last outputs) ∧
      ((∀ side, Stops (ofSide side outputs) → Stops (ofSide side (Probe.new.keptOf outputs))) →
        ∀ side, Stops (ofSide side outputs) →
          ReadsNoMore side
            ((core.onStreams S newParser ports outputs).1.flows.lookup key)) ∧
      (S.Transparent → (∀ side, Stops (ofSide side outputs) → ReadsNoMore side
            ((core.onStreams S newParser ports outputs).1.flows.lookup key)) →
        ∀ side, Stops (ofSide side outputs) →
          Stops (ofSide side (Probe.new.keptOf outputs))) := by
  obtain ⟨last, stream, hls, hnt, hfl⟩ :=
    @onStreams_resumed K P M F _ S newParser core key ports outputs signature max_probe_packets
      hsel hnew hout probe hmatch
  have hne : outputs ≠ [] := ne_nil_of_matchAfter hmatch
  have hkey : last.key = key := (hout _ (mem_of_getLast? hls)).1
  obtain ⟨hac, haw⟩ := @onStreams_all K P M F _ S newParser
    { core with selector := .all } key ports (resumed last outputs) rfl hnew
    (outputsOf_resumed hkey hout) (resumed_ne_nil last hne)
  refine ⟨⟨last, stream, hls, ?_⟩, ?_, ?_⟩
  · refine ⟨hnt.trans hac.symm, hfl.trans haw.symm,
      fun side => ofSide_split side, ?_, ?_, ?_, ?_⟩
    · intro side hdd
      have hcap := cap_lt_of_dropped (Sides.get_both _ side) hdd
      rwa [show new.replay_bytes = 0 from rfl, Nat.zero_add] at hcap
    · intro side
      have hhr := feedAll_hears S side (resumed last outputs)
        (.new (newParser core.factory key).2)
      rw [Active.stopped_new, heard_resumed, ← hnt] at hhr
      refine hhr.trans ?_
      simp only [Bool.false_eq_true, if_false]
      split
      · rw [append_nil]
        exact prefix_append _ _
      · exact prefix_rfl
    · intro hS side
      have hhr := feedAll_hears_all hS side (resumed last outputs)
        (.new (newParser core.factory key).2)
      rw [Active.stopped_new, heard_resumed, ← hnt] at hhr
      exact hhr
    · intro hS side
      have hall := (@onStreams_all K P M F _ S newParser { core with selector := .all } key ports
        outputs rfl hnew hout hne).1
      rw [hall, feedAll_hears_all hS, Active.stopped_new]
      rfl
  · intro hkt side hsp
    rw [hfl, readsNoMore_flowOf]
    intro b hb
    exact feedAll_stops S hb (.inr ((stops_resumed side last outputs).mpr (hkt side hsp)))
  · intro hS hob side hsp
    by_contra hlo
    exact not_readsNoMore hS _ last hlo (hfl ▸ hob side hsp)

section Samples

/-- A parser that reads everything and says nothing. -/
def quietParser : SessionParser Unit Unit where
  feed_initiator _ _ _ := ((), [])
  feed_responder _ _ _ := ((), [])
  fin_initiator _ := ((), [])
  fin_responder _ := ((), [])
  rst_initiator _ := ()
  rst_responder _ := ()
  on_tick _ _ := ((), [])
  on_gap _ _ _ _ := ((), .continue_, [])
  is_poisoned _ := false
  poison_reason _ := none
  is_done _ := false

theorem quietParser_transparent : quietParser.Transparent := fun _ => ⟨rfl, rfl, fun _ _ _ => rfl⟩

/-- A side that starts with the byte `1` matches. -/
def startsWithOne (first : List UInt8) : SignatureMatch :=
  if first.head? = some 1 then .match_ else .needMoreData

def sampleCore : SessionCore Unit Unit Unit := ⟨(), .signature startsWithOne 10, ∅⟩

def sampleCtx (side : FlowSide) : Ctx Unit :=
  ⟨(), side, .forward, .zero, ⟨true, true, true, true⟩⟩

def stopAfterByte : Stream := .chunks ((StreamChunks.new.pushData [0]).setStop .overflow)

/-- A stop, then a byte of the other side that matches. -/
def stopFirst : List (Ctx Unit × Stream) :=
  [(sampleCtx .initiator, stopAfterByte), (sampleCtx .responder, .bytes [1])]

/-- A stop that is kept is obeyed. -/
theorem probing_transparent_iff_stopFirst :
    ReadsNoMore .initiator
      ((sampleCore.onStreams quietParser (fun _ _ => ((), ())) none stopFirst).1.flows.lookup
        ()) := by
  have hout : OutputsOf () stopFirst := by
    unfold OutputsOf
    decide
  have hkt : ∀ side, Stops (ofSide side stopFirst) →
      Stops (ofSide side (new.keptOf stopFirst)) := by
    intro side
    cases side <;> decide
  exact (probing_transparent_iff quietParser _ sampleCore none rfl rfl hout rfl).2.1 hkt
    .initiator (by decide)

/-- Bytes, then a stop, then a byte of the other side that matches. -/
def stopAfter (bytes : List UInt8) : List (Ctx Unit × Stream) :=
  [(sampleCtx .initiator, .bytes bytes), (sampleCtx .initiator, stopAfterByte),
    (sampleCtx .responder, .bytes [1])]

section

variable {bytes : List UInt8} (hlen : bytes.length = PROBE_REPLAY_BYTE_CAP)
include hlen

theorem isEmpty_of_length_cap : bytes.isEmpty = false := by
  cases bytes with
  | nil => exact absurd hlen (by decide)
  | cons b rest => rfl

/-- The stop comes when no more is kept of its side. -/
theorem keptOf_stopAfter :
    new.keptOf (stopAfter bytes) =
      [(sampleCtx .initiator, .bytes bytes), (sampleCtx .responder, .bytes [1])] := by
  simp [stopAfter, keptOf, sampleCtx, record, Keeps, Sides.get,
    Sides.set, Stream.len, hlen, stopAfterByte, StreamChunks.len,
    StreamChunks.pushData, StreamChunks.setStop, new, Sides.both]

theorem outputsOf_stopAfter : OutputsOf () (stopAfter bytes) := by
  intro o ho
  refine ⟨rfl, ?_⟩
  simp only [stopAfter, mem_cons, not_mem_nil, or_false] at ho
  obtain rfl | rfl | rfl := ho
  · exact isEmpty_of_length_cap hlen
  · rfl
  · rfl

theorem matchAfter_stopAfter
    (hfr : startsWithOne (bytes.take PROBE_BUFFER_CAP) = .needMoreData) :
    ∃ probe, new.matchAfter startsWithOne 10 (stopAfter bytes) = some probe := by
  have hrm : PROBE_BUFFER_CAP - min PROBE_BUFFER_CAP PROBE_REPLAY_BYTE_CAP = 0 := by decide
  have hnn : startsWithOne [] = .needMoreData := by decide
  have hone : startsWithOne ([1].take PROBE_BUFFER_CAP) = .match_ := by decide
  simp [stopAfter, matchAfter, step, readPrefix, verdict, record,
    new, sampleCtx, Sides.both, Sides.get, Sides.set, Stream.iter,
    isEmpty_of_length_cap hlen, extendPrefix, Keeps, Stream.stop, Stream.len, hlen,
    stopAfterByte, StreamChunks.setStop, StreamChunks.pushData, StreamChunks.new, StreamChunks.len,
    StreamChunks.iter, StreamChunks.walk, hrm, hfr, hnn, hone]

end

/-- A stop in an output that does not fit is lost: the parser reads the side on. -/
theorem stop_lost_while_probing :
    let outputs := stopAfter (List.replicate PROBE_REPLAY_BYTE_CAP 0)
    OutputsOf () outputs ∧
      (∃ probe, new.matchAfter startsWithOne 10 outputs = some probe) ∧
      Stops (ofSide .initiator outputs) ∧
      ¬ReadsNoMore .initiator ((sampleCore.onStreams quietParser (fun _ _ => ((), ())) none
        outputs).1.flows.lookup ()) := by
  obtain ⟨bytes, hby⟩ : ∃ bytes : List UInt8, bytes = List.replicate PROBE_REPLAY_BYTE_CAP 0 :=
    ⟨_, rfl⟩
  have hlen : bytes.length = PROBE_REPLAY_BYTE_CAP := by rw [hby, length_replicate]
  have hfr : startsWithOne (bytes.take PROBE_BUFFER_CAP) = .needMoreData := by
    rw [hby]
    decide
  rw [← hby]
  obtain ⟨probe, hpr⟩ := matchAfter_stopAfter hlen hfr
  obtain ⟨last, stream, -, -, hfl⟩ := @onStreams_resumed Unit Unit Unit Unit _ quietParser
    (fun _ _ => ((), ())) sampleCore () none (stopAfter bytes) _ _ rfl rfl
    (outputsOf_stopAfter hlen) probe hpr
  refine ⟨outputsOf_stopAfter hlen, ⟨probe, hpr⟩,
    ⟨(sampleCtx .initiator, stopAfterByte), by simp [stopAfter, ofSide, sampleCtx], rfl⟩, ?_⟩
  rw [hfl]
  refine not_readsNoMore quietParser_transparent _ last ?_
  rw [keptOf_stopAfter hlen]
  simp [Stops, ofSide, sampleCtx, Stream.stop]

end Samples

/-- Whatever a parser does, it hears of a side the outputs in order, up to the first stop. -/
theorem onStreams_in_order {a : Active P} (h : core.flows.lookup key = some (.active a))
    (hout : OutputsOf key outputs) (side : FlowSide) :
    callsOn side (core.onStreams S newParser ports outputs).2 <+:
      if a.stopped.get side then [] else heard (ofSide side outputs) := by
  rw [(onStreams_active h hout).1]
  exact feedAll_hears S side outputs a

theorem onStreams_in_order_stopFirst :
    callsOn .initiator (onStreams quietParser (fun _ _ => ((), ())) ⟨(), .all, .singleton ()
      (.active (.new ()))⟩ none stopFirst).2 <+: heard (ofSide .initiator stopFirst) := by
  have hout : OutputsOf () stopFirst := by
    unfold OutputsOf
    decide
  exact onStreams_in_order (a := .new ()) rfl hout .initiator

end SessionCore

end Flowscope.Session
