import Flowscope.Session.Core

/-!
# What a parser hears of a side

The calls of a parser that are about one side of a flow, read off the notes of the core. Whatever the
parser does, it hears of a side the chunks of its outputs in order, up to some point; a parser that
never closes and never stops a side by itself hears all of them up to the first stop.
-/

namespace Flowscope.Session

open List Active

variable {K P M F : Type}

/-- The call is about this side. -/
def ParserCall.isOn (side : FlowSide) : ParserCall → Bool
  | .feed s _ _ | .gap s _ _ | .fin s | .rst s => s = side
  | .tick _ => false

/-- The calls about one side among the notes. -/
def callsOn (side : FlowSide) (notes : List (Note K M)) : List ParserCall :=
  notes.filterMap fun
    | .call _ c => if c.isOn side then some c else none
    | _ => none

def ofSide (side : FlowSide) (outputs : List (Ctx K × Stream)) : List (Ctx K × Stream) :=
  outputs.filter fun o => o.1.side = side

/-- The call that hands over a chunk. -/
def callOf (cx : Ctx K) : Chunk → ParserCall
  | .data bytes => .feed cx.side bytes cx.ts
  | .gap missing => .gap cx.side missing cx.ts

/-- The chunks of the outputs of one side up to the first stop, as calls. -/
def heard : List (Ctx K × Stream) → List ParserCall
  | [] => []
  | (cx, stream) :: rest =>
    stream.iter.map (callOf cx) ++ if stream.stop.isSome then [] else heard rest

def Stops (outputs : List (Ctx K × Stream)) : Prop := ∃ o ∈ outputs, o.2.stop.isSome = true

instance (outputs : List (Ctx K × Stream)) : Decidable (Stops outputs) :=
  inferInstanceAs (Decidable (∃ o ∈ outputs, o.2.stop.isSome = true))

/-- The parser never closes, and reads on after a gap. -/
def SessionParser.Transparent (S : SessionParser P M) : Prop :=
  ∀ p, S.is_poisoned p = false ∧ S.is_done p = false ∧
    ∀ side missing ts, (S.on_gap p side missing ts).2.1 = .continue_

/-! ## Outputs -/

variable (S : SessionParser P M) (side : FlowSide) (cx : Ctx K)

@[simp]
theorem ofSide_nil : ofSide side ([] : List (Ctx K × Stream)) = [] := rfl

theorem ofSide_cons_same {side : FlowSide} {cx : Ctx K} (h : cx.side = side) (stream : Stream)
    (rest : List (Ctx K × Stream)) :
    ofSide side ((cx, stream) :: rest) = (cx, stream) :: ofSide side rest := by
  simp [ofSide, h]

theorem ofSide_cons_other {side : FlowSide} {cx : Ctx K} (h : cx.side ≠ side) (stream : Stream)
    (rest : List (Ctx K × Stream)) : ofSide side ((cx, stream) :: rest) = ofSide side rest := by
  simp [ofSide, h]

theorem ofSide_append (l l' : List (Ctx K × Stream)) :
    ofSide side (l ++ l') = ofSide side l ++ ofSide side l' := by
  simp [ofSide]

theorem stops_cons (o : Ctx K × Stream) (rest : List (Ctx K × Stream)) :
    Stops (o :: rest) ↔ o.2.stop.isSome = true ∨ Stops rest := by
  simp [Stops]

theorem stops_append (l l' : List (Ctx K × Stream)) : Stops (l ++ l') ↔ Stops l ∨ Stops l' := by
  simp [Stops, or_and_right, exists_or]

theorem not_stops_nil : ¬Stops ([] : List (Ctx K × Stream)) := by simp [Stops]

variable {outputs l : List (Ctx K × Stream)}

theorem heard_append_of_stops (h : Stops l)
    (l' : List (Ctx K × Stream)) : heard (l ++ l') = heard l := by
  induction l with
  | nil => exact absurd h not_stops_nil
  | cons o rest ih =>
    obtain ⟨cx, stream⟩ := o
    by_cases hsp : stream.stop.isSome = true
    · simp [heard, hsp]
    · have hrs : Stops rest := ((stops_cons _ _).mp h).resolve_left hsp
      simp only [cons_append, heard, ih hrs]

theorem heard_append_of_not_stops (h : ¬Stops l)
    (l' : List (Ctx K × Stream)) : heard (l ++ l') = heard l ++ heard l' := by
  induction l with
  | nil => rfl
  | cons o rest ih =>
    rw [stops_cons, not_or] at h
    simp [heard, h.1, ih h.2]

/-! ## Calls of one feed -/

@[simp]
theorem callsOn_nil : callsOn side ([] : List (Note K M)) = [] := rfl

@[simp]
theorem callsOn_append (l l' : List (Note K M)) :
    callsOn side (l ++ l') = callsOn side l ++ callsOn side l' := by
  simp [callsOn]

@[simp]
theorem callsOn_messages (ms : List M) : callsOn side (messages cx ms) = [] := by
  simp [callsOn, messages]

@[simp]
theorem callsOn_emitClose (close : Close) :
    callsOn side (emitClose cx close : List (Note K M)) = [] := by
  simp only [callsOn, filterMap_eq_nil_iff]
  intro n hn
  cases n with
  | call key c => cases close <;> simp [emitClose] at hn
  | _ => rfl

@[simp]
theorem callsOn_call (key : K) (c : ParserCall) (rest : List (Note K M)) :
    callsOn side (.call key c :: rest) =
      (if c.isOn side then [c] else []) ++ callsOn side rest := by
  by_cases h : c.isOn side <;> simp [callsOn, h]

theorem callsOn_feedChunk (p : P) (chunk : Chunk) :
    callsOn side (feedChunk S cx p chunk).2.2 =
      if cx.side = side then [callOf cx chunk] else [] := by
  cases chunk with
  | data bytes => simp [feedChunk, callOf, ParserCall.isOn]
  | gap missing => simp [feedChunk, callOf, ParserCall.isOn]

/-- The parser ends the feed at the first chunk, or the feed goes on behind it. -/
theorem feedChunks_cons (p : P) (chunk : Chunk) (rest : List Chunk) :
    (∃ end_, feedChunks S cx p (chunk :: rest) =
        ((feedChunk S cx p chunk).1, some end_, (feedChunk S cx p chunk).2.2)) ∨
      feedChunks S cx p (chunk :: rest) =
        ((feedChunks S cx (feedChunk S cx p chunk).1 rest).1,
          (feedChunks S cx (feedChunk S cx p chunk).1 rest).2.1,
          (feedChunk S cx p chunk).2.2 ++ (feedChunks S cx (feedChunk S cx p chunk).1 rest).2.2) := by
  rw [feedChunks]
  dsimp only
  split
  · exact .inl ⟨_, rfl⟩
  · exact .inl ⟨_, rfl⟩
  · exact .inl ⟨_, rfl⟩
  · exact .inr rfl

/-- A feed of the other side says nothing about this one. -/
theorem callsOn_feedChunks_other {side : FlowSide} {cx : Ctx K}
    (h : cx.side ≠ side) (p : P) (chunks : List Chunk) :
    callsOn side (feedChunks S cx p chunks).2.2 = [] := by
  induction chunks generalizing p with
  | nil => rfl
  | cons chunk rest ih =>
    have hone : callsOn side (feedChunk S cx p chunk).2.2 = [] := by
      rw [callsOn_feedChunk, if_neg h]
    obtain ⟨end_, heq⟩ | heq := feedChunks_cons S cx p chunk rest
    · rw [heq, hone]
    · rw [heq, callsOn_append, hone, ih, nil_append]

/-- The chunks are handed over in order, and all of them unless the parser ends the feed. -/
theorem callsOn_feedChunks (p : P) (chunks : List Chunk) :
    callsOn cx.side (feedChunks S cx p chunks).2.2 <+: chunks.map (callOf cx) ∧
      ((feedChunks S cx p chunks).2.1 = none →
        callsOn cx.side (feedChunks S cx p chunks).2.2 = chunks.map (callOf cx)) := by
  induction chunks generalizing p with
  | nil => exact ⟨prefix_rfl, fun _ => rfl⟩
  | cons chunk rest ih =>
    have hone : callsOn cx.side (feedChunk S cx p chunk).2.2 = [callOf cx chunk] := by
      rw [callsOn_feedChunk, if_pos rfl]
    obtain ⟨end_, heq⟩ | heq := feedChunks_cons S cx p chunk rest
    · rw [heq, hone]
      exact ⟨⟨rest.map (callOf cx), rfl⟩, by simp⟩
    · obtain ⟨hpre, hall⟩ := ih (feedChunk S cx p chunk).1
      rw [heq, callsOn_append, hone]
      constructor
      · exact (prefix_cons_inj _).mpr hpre
      · intro hnn
        rw [hall hnn]
        rfl

theorem feedChunks_of_transparent {S : SessionParser P M} (hS : S.Transparent) (cx : Ctx K) (p : P)
    (chunks : List Chunk) : (feedChunks S cx p chunks).2.1 = none := by
  induction chunks generalizing p with
  | nil => rfl
  | cons chunk rest ih =>
    have hcls : ∀ q, checkClose S q = none := by
      intro q
      simp [checkClose, (hS q).1, (hS q).2.1]
    cases chunk with
    | data bytes => simp [feedChunks, feedChunk, hcls, ih]
    | gap missing => simp [feedChunks, feedChunk, hcls, ih, (hS p).2.2]

/-! ## One feed of an active parser -/

/-- A feed ends as the parser wants, or else with the stop of the output. -/
theorem feed_eq (p : P) (stream : Stream) :
    feed S cx p stream = ((feedChunks S cx p stream.iter).1, (feedChunks S cx p stream.iter).2.1.or
        (stream.stop.map fun stop => .stopSide .bufferOverflow s!"reassembly stopped: {stop}"),
      (feedChunks S cx p stream.iter).2.2) := by
  rw [feed]
  obtain ⟨q, end_, notes⟩ := feedChunks S cx p stream.iter
  cases end_ with
  | none => rfl
  | some e => rfl

@[simp]
theorem callsOn_emitSideStopped (reason : EndReason)
    (detail : String) : callsOn side (emitSideStopped cx reason detail : List (Note K M)) = [] := by
  by_cases h : cx.emit.parser_events = true <;> simp [emitSideStopped, callsOn, h]

namespace Active

variable (S : SessionParser P M) (cx : Ctx K) (stream : Stream) (a : Active P)

theorem stopped_new (parser : P) (side : FlowSide) : (new parser).stopped.get side = false :=
  Sides.get_both _ side

/-- What feeding a side that is still read can do: the parser reads on, closes, or stops the side,
which closes it if the other side is stopped. -/
theorem feed_cases (h : a.stopped.get cx.side = false) :
    ∃ p end_ notes, Session.feed S cx a.parser stream = (p, end_, notes) ∧
      ((end_ = none ∧ a.feed S cx stream = (⟨p, a.stopped⟩, false, notes)) ∨
        (∃ close, end_ = some (.close close) ∧
          a.feed S cx stream = (⟨p, a.stopped⟩, true, notes ++ emitClose cx close)) ∨
        (∃ reason detail, end_ = some (.stopSide reason detail) ∧
          a.stopped.set cx.side true = .both true ∧
          a.feed S cx stream = (⟨p, a.stopped.set cx.side true⟩, true,
            notes ++ emitSideStopped cx reason detail ++ emitClose cx (.bothSides reason))) ∨
        (∃ reason detail, end_ = some (.stopSide reason detail) ∧
          a.stopped.set cx.side true ≠ .both true ∧
          a.feed S cx stream = (⟨p, a.stopped.set cx.side true⟩, false,
            notes ++ emitSideStopped cx reason detail))) := by
  have hon : ¬a.stopped.get cx.side = true := by simp [h]
  simp only [feed, if_neg hon]
  obtain ⟨p, end_, notes⟩ := Session.feed S cx a.parser stream
  refine ⟨p, end_, notes, rfl, ?_⟩
  match end_ with
  | none => exact .inl ⟨rfl, rfl⟩
  | some (.close close) => exact .inr (.inl ⟨close, rfl, rfl⟩)
  | some (.stopSide reason detail) =>
    by_cases hbh : a.stopped.set cx.side true = .both true
    · exact .inr (.inr (.inl ⟨reason, detail, rfl, hbh, by simp [hbh]⟩))
    · exact .inr (.inr (.inr ⟨reason, detail, rfl, hbh, by simp [hbh]⟩))

/-- A feed of the other side, or of a side that is read no more, is not heard. -/
theorem feed_silent {side : FlowSide} (h : cx.side = side → a.stopped.get side = true) :
    callsOn side (a.feed S cx stream).2.2 = [] ∧
      (a.feed S cx stream).1.stopped.get side = a.stopped.get side := by
  cases hsp : a.stopped.get cx.side with
  | true => simp [feed, hsp]
  | false =>
    have hsd : cx.side ≠ side := by
      rintro rfl
      exact absurd (h rfl) (by simp [hsp])
    have hset : (a.stopped.set cx.side true).get side = a.stopped.get side :=
      Sides.get_set_of_ne _ (Ne.symm hsd) _
    obtain ⟨p, end_, notes, hfd, hca⟩ := feed_cases S cx stream a hsp
    have hcs : callsOn side notes = [] := by
      have hall := callsOn_feedChunks_other S hsd a.parser stream.iter
      rw [feed_eq] at hfd
      simp only [Prod.mk.injEq] at hfd
      rwa [hfd.2.2] at hall
    obtain ⟨-, heq⟩ | ⟨close, -, heq⟩ | ⟨reason, detail, -, -, heq⟩ | ⟨reason, detail, -, -, heq⟩ :=
      hca
    all_goals simp [heq, hcs, hset]

/-- A side that is read hears the chunks of its output in order. If afterwards it is still read, it
has heard all of them and the output has no stop. -/
theorem feed_same (h : a.stopped.get cx.side = false) :
    callsOn cx.side (a.feed S cx stream).2.2 <+: stream.iter.map (callOf cx) ∧
      ((a.feed S cx stream).2.1 = false → (a.feed S cx stream).1.stopped.get cx.side = false →
        callsOn cx.side (a.feed S cx stream).2.2 = stream.iter.map (callOf cx) ∧
          stream.stop = none) := by
  obtain ⟨p, end_, notes, hfd, hca⟩ := feed_cases S cx stream a h
  obtain ⟨hpre, hall⟩ := callsOn_feedChunks S cx a.parser stream.iter
  rw [feed_eq] at hfd
  simp only [Prod.mk.injEq] at hfd
  obtain ⟨-, hend, hnt⟩ := hfd
  rw [hnt] at hpre hall
  obtain ⟨hnn, heq⟩ | ⟨close, -, heq⟩ | ⟨reason, detail, -, -, heq⟩ | ⟨reason, detail, -, -, heq⟩ :=
    hca
  · rw [hnn, Option.or_eq_none_iff, Option.map_eq_none_iff] at hend
    rw [heq]
    exact ⟨hpre, fun _ _ => ⟨hall hend.1, hend.2⟩⟩
  all_goals
    rw [heq]
    simpa using hpre

/-- A transparent parser hears the whole output. Its side is stopped by a stop of the output only,
and it is closed only when both sides are. -/
theorem feed_of_transparent (hS : S.Transparent) (h : a.stopped.get cx.side = false) :
    callsOn cx.side (a.feed S cx stream).2.2 = stream.iter.map (callOf cx) ∧
      (a.feed S cx stream).1.stopped.get cx.side = stream.stop.isSome ∧
      ((a.feed S cx stream).2.1 = true → (a.feed S cx stream).1.stopped = .both true) := by
  obtain ⟨p, end_, notes, hfd, hca⟩ := feed_cases S cx stream a h
  have hnn := feedChunks_of_transparent hS cx a.parser stream.iter
  have hall := (callsOn_feedChunks S cx a.parser stream.iter).2 hnn
  rw [feed_eq] at hfd
  simp only [Prod.mk.injEq, hnn, Option.none_or] at hfd
  obtain ⟨-, hend, hnt⟩ := hfd
  rw [hnt] at hall
  obtain ⟨rfl, heq⟩ | ⟨close, rfl, -⟩ | ⟨reason, detail, rfl, hbh, heq⟩ |
    ⟨reason, detail, rfl, -, heq⟩ := hca
  · rw [Option.map_eq_none_iff] at hend
    simp [heq, hall, hend, h]
  · simp at hend
  all_goals
    obtain ⟨stop, hsp, -⟩ := Option.map_eq_some_iff.mp hend
    simp [heq, hall, hsp]
  exact hbh

/-- A transparent parser that is closed reads neither side. -/
theorem stopped_of_closed (hS : S.Transparent) (h : (a.feed S cx stream).2.1 = true)
    (side : FlowSide) : (a.feed S cx stream).1.stopped.get side = true := by
  cases hsp : a.stopped.get cx.side with
  | true => simp [feed, hsp] at h
  | false => rw [(feed_of_transparent S cx stream a hS hsp).2.2 h, Sides.get_both]

end Active

/-! ## Feeding outputs one after another -/

theorem feedAll_cons (a : Active P) (cx : Ctx K) (stream : Stream) (rest : List (Ctx K × Stream)) :
    ((a.feed S cx stream).2.1 = true ∧
        feedAll S a ((cx, stream) :: rest) = (none, (a.feed S cx stream).2.2)) ∨
      ((a.feed S cx stream).2.1 = false ∧ feedAll S a ((cx, stream) :: rest) =
          ((feedAll S (a.feed S cx stream).1 rest).1,
            (a.feed S cx stream).2.2 ++ (feedAll S (a.feed S cx stream).1 rest).2)) := by
  rw [feedAll]
  obtain ⟨b, closed, notes⟩ := a.feed S cx stream
  cases closed with
  | true => exact .inl ⟨rfl, rfl⟩
  | false => exact .inr ⟨rfl, rfl⟩

/-- An output of the other side, or of a side that is read no more, is not to be heard. -/
theorem heard_silent {side : FlowSide} {cx : Ctx K} {stopped : Bool}
    (h : cx.side = side → stopped = true) (stream : Stream) (rest : List (Ctx K × Stream)) :
    (if stopped then [] else heard (ofSide side ((cx, stream) :: rest))) =
      if stopped then [] else heard (ofSide side rest) := by
  split_ifs with hsp
  · rfl
  · rw [ofSide_cons_other (mt h hsp)]

/-- Whatever the parser does, it hears of a side the outputs of that side in order. -/
theorem feedAll_hears (outputs : List (Ctx K × Stream)) (a : Active P) :
    callsOn side (feedAll S a outputs).2 <+:
      if a.stopped.get side then [] else heard (ofSide side outputs) := by
  induction outputs generalizing a with
  | nil => simp [feedAll]
  | cons o rest ih =>
    obtain ⟨cx, stream⟩ := o
    have hrs := ih (a.feed S cx stream).1
    by_cases hsi : cx.side = side → a.stopped.get side = true
    · obtain ⟨hnil, hsm⟩ := feed_silent S cx stream a hsi
      rw [heard_silent hsi]
      obtain ⟨-, heq⟩ | ⟨-, heq⟩ := feedAll_cons S a cx stream rest
      · rw [heq, hnil]
        exact nil_prefix
      · rw [heq, callsOn_append, hnil, ← hsm]
        exact hrs
    · obtain ⟨rfl, hsp⟩ := Classical.not_imp.mp hsi
      rw [if_neg hsp, ofSide_cons_same rfl]
      obtain ⟨hpre, hall⟩ := feed_same S cx stream a (Bool.eq_false_of_not_eq_true hsp)
      obtain ⟨-, heq⟩ | ⟨hon, heq⟩ := feedAll_cons S a cx stream rest
      · rw [heq]
        exact hpre.trans (prefix_append _ _)
      · rw [heq, callsOn_append]
        cases hsp' : (a.feed S cx stream).1.stopped.get cx.side with
        | true =>
          -- the side is read no more, so the rest of the outputs adds nothing
          rw [hsp'] at hrs
          rw [prefix_nil.mp hrs, append_nil]
          exact hpre.trans (prefix_append _ _)
        | false =>
          obtain ⟨heard_all, hnn⟩ := hall hon hsp'
          rw [hsp'] at hrs
          simpa [heard, heard_all, hnn] using hrs

/-- A transparent parser hears all outputs of a side up to the first stop. -/
theorem feedAll_hears_all {S : SessionParser P M} (hS : S.Transparent) (side : FlowSide)
    (outputs : List (Ctx K × Stream)) (a : Active P) :
    callsOn side (feedAll S a outputs).2 =
      if a.stopped.get side then [] else heard (ofSide side outputs) := by
  induction outputs generalizing a with
  | nil => simp [feedAll, heard]
  | cons o rest ih =>
    obtain ⟨cx, stream⟩ := o
    have hrs := ih (a.feed S cx stream).1
    by_cases hsi : cx.side = side → a.stopped.get side = true
    · obtain ⟨hnil, hsm⟩ := feed_silent S cx stream a hsi
      rw [heard_silent hsi, ← hsm]
      obtain ⟨hcl, heq⟩ | ⟨-, heq⟩ := feedAll_cons S a cx stream rest
      · rw [heq, hnil, if_pos (stopped_of_closed S cx stream a hS hcl side)]
      · rw [heq, callsOn_append, hnil, nil_append, hrs]
    · obtain ⟨rfl, hsp⟩ := Classical.not_imp.mp hsi
      obtain ⟨hcs, hsp', -⟩ :=
        feed_of_transparent S cx stream a hS (Bool.eq_false_of_not_eq_true hsp)
      rw [if_neg hsp, ofSide_cons_same rfl]
      obtain ⟨hcl, heq⟩ | ⟨-, heq⟩ := feedAll_cons S a cx stream rest
      · have hso := hsp'.symm.trans (stopped_of_closed S cx stream a hS hcl cx.side)
        simp [heq, hcs, heard, hso]
      · simp [heq, hcs, hrs, hsp', heard]

/-- A stop of a side closes the parser, or at least the side is read no more. -/
theorem feedAll_stops {side : FlowSide} {a b : Active P} (hb : (feedAll S a outputs).1 = some b)
    (h : a.stopped.get side = true ∨ Stops (ofSide side outputs)) : b.stopped.get side = true := by
  induction outputs generalizing a with
  | nil =>
    obtain rfl : a = b := by simpa [feedAll] using hb
    exact h.resolve_right not_stops_nil
  | cons o rest ih =>
    obtain ⟨cx, stream⟩ := o
    obtain ⟨-, heq⟩ | ⟨hon, heq⟩ := feedAll_cons S a cx stream rest
    · simp [heq] at hb
    · rw [heq] at hb
      apply ih hb
      by_cases hsi : cx.side = side → a.stopped.get side = true
      · rw [(feed_silent S cx stream a hsi).2]
        refine or_iff_not_imp_left.mpr fun hsp => ?_
        rw [← ofSide_cons_other (mt hsi hsp) stream]
        exact h.resolve_left hsp
      · obtain ⟨rfl, hsp⟩ := Classical.not_imp.mp hsi
        refine or_iff_not_imp_left.mpr fun hsp' => ?_
        have hnn := ((feed_same S cx stream a (Bool.eq_false_of_not_eq_true hsp)).2 hon
          (Bool.eq_false_of_not_eq_true hsp')).2
        simpa [ofSide_cons_same rfl, stops_cons, hnn] using h.resolve_left hsp

/-- A transparent parser reads a side on as long as there is no stop. -/
theorem feedAll_reads_on {S : SessionParser P M} (hS : S.Transparent) {side : FlowSide}
    {a : Active P} (hrd : a.stopped.get side = false)
    (h : ¬Stops (ofSide side outputs)) :
    ∃ b, (feedAll S a outputs).1 = some b ∧ b.stopped.get side = false := by
  induction outputs generalizing a with
  | nil => exact ⟨a, rfl, hrd⟩
  | cons o rest ih =>
    obtain ⟨cx, stream⟩ := o
    have hnx : (a.feed S cx stream).1.stopped.get side = false ∧ ¬Stops (ofSide side rest) := by
      by_cases hsd : cx.side = side
      · rw [ofSide_cons_same hsd, stops_cons, not_or] at h
        subst hsd
        rw [(feed_of_transparent S cx stream a hS hrd).2.1]
        exact ⟨by simpa using h.1, h.2⟩
      · rw [ofSide_cons_other hsd] at h
        rw [(feed_silent S cx stream a (absurd · hsd)).2]
        exact ⟨hrd, h⟩
    obtain ⟨hcl, heq⟩ | ⟨-, heq⟩ := feedAll_cons S a cx stream rest
    · -- a transparent parser closes with both sides stopped, but this one is not
      have hsp := stopped_of_closed S cx stream a hS hcl side
      exact absurd (hnx.1.symm.trans hsp) (by simp)
    · rw [heq]
      exact ih hnx.1 hnx.2

end Flowscope.Session
