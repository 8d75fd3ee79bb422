import Flowscope.Http2.Parser

/-!
# The streams of a connection

What the frames of a connection say about its streams is read off the frames alone (`history`): which
field blocks were completed, which sides have ended, and which streams were reset. The parser keeps less
than that. Its entry for a stream is what `tracked` makes of the history: one bit per direction, which
any field block sets, and which is gone once the server has ended the stream or the stream was reset
(`Follows`).

`head_then_trailers`: in an `Orderly` history the entry says enough. The first `HEADERS` block of a
direction is reported as the head and every later one as trailers, and a stream that is over is not
tracked. `late_block_starts_over` shows what happens otherwise: a client's trailers that come after the
server has ended are reported as a head, and the stream is tracked for good; and the response on a
promised stream is reported as trailers.
-/

namespace Flowscope.Http2

open List Except

inductive StreamNote where
  /-- A field block is complete: that of a `HEADERS` frame, or a promise of the stream. -/
  | block (dir : FlowSide) (promise : Bool) (stream_id : ℕ)
  /-- A side has ended the stream. -/
  | ended (dir : FlowSide) (stream_id : ℕ)
  | reset (stream_id : ℕ)
deriving DecidableEq, Repr

/-- A field block, as the frame that starts it announces it. -/
structure Announced where
  promise : Bool
  stream_id : ℕ
  end_stream : Bool
deriving DecidableEq, Repr

/-- The field block that a frame starts. -/
def Frame.announced (f : Frame) : Announced where
  promise := f.kind = .pushPromise
  stream_id := f.promised_stream_id.getD f.stream_id
  end_stream := f.kind = .headers && f.has END_STREAM

/-- What the frames of a connection have said, the latest first. -/
structure History where
  open_block : FlowSide → Option Announced
  notes : List StreamNote

namespace History

/-- The field block that a frame completes. -/
def completes (h : History) (d : FlowSide) (f : Frame) : Option Announced :=
  if ¬f.has END_HEADERS then none
  else
    match f.kind with
    | .headers => some f.announced
    | .pushPromise => some f.announced
    | .continuation => h.open_block d
    | _ => none

def complete (h : History) (d : FlowSide) (b : Announced) : History where
  open_block := Function.update h.open_block d none
  notes := (if b.end_stream then [.ended d b.stream_id] else []) ++
    .block d b.promise b.stream_id :: h.notes

def note (h : History) (n : StreamNote) : History := { h with notes := n :: h.notes }

def read (h : History) (d : FlowSide) (f : Frame) : History :=
  match h.completes d f with
  | some b => h.complete d b
  | none =>
    match f.kind with
    | .headers => { h with open_block := Function.update h.open_block d (some f.announced) }
    | .pushPromise => { h with open_block := Function.update h.open_block d (some f.announced) }
    | .data => if f.has END_STREAM then h.note (.ended d f.stream_id) else h
    | .rstStream => h.note (.reset f.stream_id)
    | _ => h

end History

/-- The history of a connection. -/
def history (frames : List (FlowSide × Frame)) : History :=
  frames.foldl (fun h x => h.read x.1 x.2) ⟨fun _ => none, []⟩

/-! ## What a stream's entry is made from -/

/-- The entry of a stream: every block sets a bit, and the end of the server's side or a reset removes
it. -/
def tracked : List StreamNote → ℕ → Option StreamState
  | [], _ => none
  | .block d _ id :: notes, s =>
    if s = id then some (((tracked notes s).getD .default).markHead d).1 else tracked notes s
  | .ended d id :: notes, s => if d = .responder ∧ s = id then none else tracked notes s
  | .reset id :: notes, s => if s = id then none else tracked notes s

/-- The server has ended the stream, or it was reset. -/
def Forgotten (notes : List StreamNote) (s : ℕ) : Prop :=
  .ended .responder s ∈ notes ∨ .reset s ∈ notes

instance (notes : List StreamNote) (s : ℕ) : Decidable (Forgotten notes s) :=
  inferInstanceAs (Decidable (_ ∨ _))

/-- No field block comes after the server has ended its stream or after a reset of it, and no `HEADERS`
block in a direction that had promised the stream. -/
def Orderly : List StreamNote → Prop
  | [] => True
  | .block d promise s :: notes =>
    ¬Forgotten notes s ∧ (promise = false → .block d true s ∉ notes) ∧ Orderly notes
  | .ended _ _ :: notes => Orderly notes
  | .reset _ :: notes => Orderly notes

instance decidableOrderly : ∀ notes, Decidable (Orderly notes)
  | [] => isTrue trivial
  | .block _ _ _ :: notes =>
    have := decidableOrderly notes
    inferInstanceAs (Decidable (_ ∧ _ ∧ _))
  | .ended _ _ :: notes => decidableOrderly notes
  | .reset _ :: notes => decidableOrderly notes

/-- A block that is orderly, and the notes before it. -/
theorem Orderly.of_complete {h : History} {d : FlowSide} {b : Announced}
    (hoy : Orderly (h.complete d b).notes) : ¬Forgotten h.notes b.stream_id ∧
      (b.promise = false → .block d true b.stream_id ∉ h.notes) ∧ Orderly h.notes := by
  unfold History.complete at hoy
  split_ifs at hoy
  · exact hoy
  · exact hoy

variable {notes : List StreamNote} {s : ℕ}

/-- A stream that is over has no entry. -/
theorem tracked_eq_none (h : Orderly notes) (hs : Forgotten notes s) : tracked notes s = none := by
  induction notes with
  | nil => rfl
  | cons n notes ih =>
    cases n with
    | block d promise id =>
      have hold : Forgotten notes s := by simpa [Forgotten] using hs
      have hne : s ≠ id := fun heq => h.1 (heq ▸ hold)
      rw [tracked, if_neg hne]
      exact ih h.2.2 hold
    | ended d id =>
      rw [tracked]
      split_ifs with hls
      · rfl
      · apply ih h
        simp only [Forgotten, mem_cons, StreamNote.ended.injEq, reduceCtorEq, false_or] at hs
        exact hs.imp_left fun h => h.resolve_left fun h' => hls ⟨h'.1.symm, h'.2⟩
    | reset id =>
      rw [tracked]
      split_ifs with hls
      · rfl
      · apply ih h
        simp only [Forgotten, mem_cons, StreamNote.reset.injEq, reduceCtorEq, false_or] at hs
        exact hs.imp_right fun h => h.resolve_left hls

theorem headSeen_markHead (st : StreamState) (d d' : FlowSide) :
    (st.markHead d').1.headSeen d = (decide (d = d') || st.headSeen d) := by
  cases d <;> cases d' <;> simp [StreamState.markHead, StreamState.headSeen]

/-- The bit of a direction says whether any field block has been sent in it. -/
theorem headSeen_tracked (h : Orderly notes) (hs : ¬Forgotten notes s) (d : FlowSide) :
    ((tracked notes s).getD .default).headSeen d ↔ ∃ promise, .block d promise s ∈ notes := by
  induction notes with
  | nil => cases d <;> simp [tracked, StreamState.headSeen, StreamState.default]
  | cons n notes ih =>
    have hold : ¬Forgotten notes s :=
      mt (Or.imp (mem_cons_of_mem n) (mem_cons_of_mem n)) hs
    cases n with
    | block d' promise id =>
      have hbt := ih h.2.2 hold
      rw [tracked]
      split_ifs with heq
      · rw [Option.getD_some, headSeen_markHead, Bool.or_eq_true, hbt]
        simp [heq, exists_or]
      · rw [hbt]
        simp [heq]
    | ended d' id =>
      have hnot : ¬(d' = .responder ∧ s = id) := fun ⟨hd, hid⟩ => hs (.inl (by simp [hd, hid]))
      rw [tracked, if_neg hnot, ih h hold]
      simp
    | reset id =>
      have hnot : s ≠ id := fun hid => hs (.inr (by simp [hid]))
      rw [tracked, if_neg hnot, ih h hold]
      simp

/-! ## The parser follows the history -/

def Frame.Parsed (f : Frame) : Prop :=
  ∃ buf max used, parseFrame buf max = .ok (some (f, used))

/-- Just the frames that promise a stream name one. -/
theorem Frame.Parsed.promised {f : Frame} (h : f.Parsed) :
    f.promised_stream_id.isSome ↔ f.kind = .pushPromise := by
  obtain ⟨buf, max, used, h⟩ := h
  obtain ⟨o, -, h⟩ := bind_eq_ok.mp h
  cases o with
  | none => simp [pure, Except.pure] at h
  | some total =>
    obtain ⟨payload, -, h⟩ := bind_eq_ok.mp h
    obtain ⟨payload, -, h⟩ := bind_eq_ok.mp h
    obtain ⟨⟨promised, payload⟩, hsl, h⟩ := bind_eq_ok.mp h
    obtain ⟨rfl, -⟩ := h
    unfold splitPromised at hsl
    split_ifs at hsl with hkn hsh
    · simp only [ok.injEq, Prod.mk.injEq] at hsl
      exact iff_of_true (by rw [← hsl.1]; rfl) hkn
    · simp only [ok.injEq, Prod.mk.injEq] at hsl
      exact iff_of_false (by simp [← hsl.1]) hkn

/-- A block that a frame starts ends the stream as the parser reads it. -/
theorem Frame.Parsed.end_stream {f : Frame} (h : f.Parsed)
    (hkn : f.kind = .headers ∨ f.kind = .pushPromise) :
    (f.promised_stream_id.isNone && f.has END_STREAM) = f.announced.end_stream := by
  have hpm := h.promised
  rcases hkn with hkn | hkn
  · have hnn : f.promised_stream_id = none := by simpa [hkn] using hpm
    simp [announced, hkn, hnn]
  · have hso : f.promised_stream_id.isNone = false := by simpa [hkn] using hpm
    simp [announced, hkn, hso]

namespace Http2Parser

def blockEvents (is_trailers : Bool) (d : FlowSide) (b : Announced) (fields : List Field) :
    List Http2Event :=
  (if is_trailers then .trailers b.stream_id d fields
    else .head ⟨b.stream_id, d, fields, b.end_stream⟩) ::
  if b.end_stream then [.end_ b.stream_id d] else []

/-- The parser's streams and open blocks are those of the history. -/
structure Follows (h : History) (p : Http2Parser) : Prop where
  open_block : ∀ d, (p.dir d).partial_block.map (fun b => (b.describes_stream, b.end_stream)) =
    (h.open_block d).map fun b => (b.stream_id, b.end_stream)
  streams : ∀ s, p.streams.lookup s = tracked h.notes s

section Step

variable {h : History} {p q : Http2Parser} {d : FlowSide} {f : Frame} {b : Announced}

theorem lookup_finishStream (id s : ℕ) : (p.finishStream id d).streams.lookup s =
    if d = .responder ∧ s = id then none else p.streams.lookup s := by
  unfold finishStream
  by_cases hd : d = .responder
  · rw [if_pos hd]
    exact (Table.lookup_erase_eq).trans (by simp [hd, emit])
  · rw [if_neg hd, if_neg fun hand => hd hand.1]
    rfl

theorem markHead_snd (st : StreamState) : (st.markHead d).2 = st.headSeen d := by
  cases d <;> rfl

theorem dir_finishStream (id : ℕ) (d' : FlowSide) : (p.finishStream id d).dir d' = p.dir d' := by
  unfold finishStream
  split_ifs <;> cases d' <;> rfl

theorem events_finishStream (id : ℕ) : (p.finishStream id d).events = p.events ++ [.end_ id d] := by
  unfold finishStream
  split_ifs <;> rfl

theorem reportBlock_ok {fields : List Field}
    (hq : p.reportBlock d b.stream_id fields b.end_stream = (q, .ok ())) :
    (∀ s, q.streams.lookup s = if b.end_stream ∧ d = .responder ∧ s = b.stream_id then none
      else if s = b.stream_id then
        some (((p.streams.lookup b.stream_id).getD .default).markHead d).1
      else p.streams.lookup s) ∧
    (∀ d', q.dir d' = p.dir d') ∧
    q.events = p.events ++
      blockEvents (((p.streams.lookup b.stream_id).getD .default).headSeen d) d b fields := by
  unfold reportBlock at hq
  by_cases hmn : b.stream_id ∉ p.streams ∧ p.config.max_concurrent_streams ≤ p.streams.size
  · rw [if_pos hmn] at hq
    cases (Prod.mk.inj hq).2
  rw [if_neg hmn] at hq
  dsimp only at hq
  rw [markHead_snd] at hq
  unfold blockEvents
  obtain rfl := (Prod.mk.inj hq).1
  cases b.end_stream with
  | true =>
    refine ⟨fun s => ?_, fun d' => ?_, ?_⟩
    · rw [if_pos rfl, lookup_finishStream]
      split_ifs <;> simp_all [Table.lookup_put, emit, setStreams]
    · rw [if_pos rfl, dir_finishStream]
      cases d' <;> rfl
    · rw [if_pos rfl, events_finishStream]
      exact append_assoc _ _ _
  | false =>
    refine ⟨fun s => ?_, fun d' => ?_, rfl⟩
    · exact (Table.lookup_put).trans (by simp)
    · cases d' <;> rfl

/-- What a field block that is accepted does. -/
theorem completeBlock_ok {block : Bytes}
    (hss : ∀ s, p.streams.lookup s = tracked h.notes s)
    (hq : p.completeBlock d b.stream_id block b.end_stream = (q, .ok ())) :
    (∀ s, q.streams.lookup s = tracked (h.complete d b).notes s) ∧
      (∀ d', (q.dir d').partial_block = (p.dir d').partial_block) ∧
      ∃ fields, q.events = p.events ++
        blockEvents (((tracked h.notes b.stream_id).getD .default).headSeen d) d b fields := by
  unfold completeBlock at hq
  dsimp only at hq
  cases hdd : ((p.dir d).hpack.decode block).2 with
  | error e => simp [hdd] at hq
  | ok fields =>
    rw [hdd] at hq
    obtain ⟨hlk, hdir, hes⟩ := reportBlock_ok hq
    obtain ⟨p', hp'⟩ : ∃ p', p' = p.modifyDir d fun s =>
      { s with hpack := ((p.dir d).hpack.decode block).1 } := ⟨_, rfl⟩
    have hsm : p'.streams = p.streams ∧ p'.events = p.events := by
      rw [hp']
      cases d <;> exact ⟨rfl, rfl⟩
    rw [← hp', hsm.1, hss] at hlk hes
    rw [hsm.2] at hes
    refine ⟨fun s => ?_, fun d' => ?_, fields, hes⟩
    · rw [hlk, hss, History.complete]
      cases b.end_stream with
      | true =>
        simp only [if_true, cons_append, nil_append, tracked]
        by_cases hs : s = b.stream_id <;> simp [hs]
      | false =>
        simp only [Bool.false_eq_true, if_false, nil_append, tracked]
        by_cases hs : s = b.stream_id <;> simp [hs]
    · rw [hdir]
      cases d <;> cases d' <;> rfl

/-- What a frame that is accepted does. -/
structure Reads (h : History) (p : Http2Parser) (d : FlowSide) (f : Frame) (q : Http2Parser) :
    Prop where
  follows : Follows (h.read d f) q
  events : ∀ b, h.completes d f = some b → ∃ fields, q.events = p.events ++
    blockEvents (((tracked h.notes b.stream_id).getD .default).headSeen d) d b fields

section

variable (hf : Follows h p)
include hf

/-- One direction's open block changes. -/
theorem Follows.update {o : Option Announced}
    (hsf : (q.dir d).partial_block.map (fun b => (b.describes_stream, b.end_stream)) =
      o.map fun b => (b.stream_id, b.end_stream))
    (hor : ∀ d' ≠ d, (q.dir d').partial_block = (p.dir d').partial_block) (d' : FlowSide) :
    (q.dir d').partial_block.map (fun b => (b.describes_stream, b.end_stream)) =
      (Function.update h.open_block d o d').map fun b => (b.stream_id, b.end_stream) := by
  by_cases hd : d' = d
  · rw [hd, Function.update_self]
    exact hsf
  · rw [Function.update_of_ne hd, hor d' hd]
    exact hf.open_block d'

/-- A field block is complete, and no other is open. -/
theorem Follows.complete {p' : Http2Parser} {block : Bytes}
    (hp' : p' = p.modifyDir d fun s => { s with partial_block := none })
    (hcm : h.completes d f = some b)
    (hq : p'.completeBlock d b.stream_id block b.end_stream = (q, .ok ())) : Reads h p d f q := by
  have hrd : h.read d f = h.complete d b := by rw [History.read, hcm]
  have hlk : ∀ s, p'.streams.lookup s = tracked h.notes s := by
    rw [hp', streams_modifyDir]
    exact hf.streams
  obtain ⟨hss, hbl, hes⟩ := completeBlock_ok hlk hq
  rw [hp', events_modifyDir] at hes
  refine ⟨⟨?_, hrd ▸ hss⟩, fun b' hb' => ?_⟩
  · rw [hrd]
    refine hf.update ?_ fun d' hd => ?_
    · rw [hbl, hp', dir_modifyDir_self]
      rfl
    · rw [hbl, hp', dir_modifyDir_of_ne hd]
  · obtain rfl := Option.some.inj (hcm.symm.trans hb')
    exact hes

theorem Follows.beginBlock (hpd : f.Parsed)
    (hkn : f.kind = .headers ∨ f.kind = .pushPromise) (hnn : (p.dir d).partial_block = none)
    (hq : p.beginBlock d f = (q, .ok ())) : Reads h p d f q := by
  unfold Http2Parser.beginBlock at hq
  rw [hpd.end_stream hkn] at hq
  split_ifs at hq with hlo hend
  · cases (Prod.mk.inj hq).2
  · have hcm : h.completes d f = some f.announced := by
      rcases hkn with hkn | hkn <;> simp [History.completes, hend, hkn]
    have hsf : p = p.modifyDir d fun s => { s with partial_block := none } := by
      symm
      apply modifyDir_eq_self
      rw [← hnn]
    exact hf.complete hsf hcm hq
  · have hcm : h.completes d f = none := by simp [History.completes, hend]
    have hrd : h.read d f =
        { h with open_block := Function.update h.open_block d (some f.announced) } := by
      rcases hkn with hkn | hkn <;> simp [History.read, hcm, hkn]
    obtain rfl := (Prod.mk.inj hq).1
    refine ⟨⟨?_, ?_⟩, fun b hb => ?_⟩
    · rw [hrd]
      refine hf.update ?_ fun d' hd => ?_
      · rw [dir_modifyDir_self]
        rfl
      · rw [dir_modifyDir_of_ne hd]
    · rw [hrd, streams_modifyDir]
      exact hf.streams
    · simp [hcm] at hb

theorem Follows.continueBlock (hkn : f.kind = .continuation)
    (hq : p.continueBlock d f = (q, .ok ())) : Reads h p d f q := by
  unfold Http2Parser.continueBlock at hq
  have hon := hf.open_block d
  cases hbl : (p.dir d).partial_block with
  | none =>
    rw [hbl] at hq
    cases (Prod.mk.inj hq).2
  | some block =>
    rw [hbl] at hq hon
    dsimp only at hq
    obtain ⟨b, hb, hsm⟩ := Option.map_eq_some_iff.mp hon.symm
    obtain ⟨hid, hens⟩ := Prod.mk.inj hsm
    rw [← hid, ← hens] at hq
    split_ifs at hq with hlo hmr
    · cases (Prod.mk.inj hq).2
    · refine hf.complete rfl ?_ hq
      simp [History.completes, hmr, hkn, hb]
    · have hrd : h.read d f = h := by simp [History.read, History.completes, hmr, hkn]
      obtain rfl := (Prod.mk.inj hq).1
      refine ⟨⟨?_, ?_⟩, fun b hb => ?_⟩
      · rw [hrd, ← Function.update_eq_self d h.open_block]
        refine hf.update ?_ fun d' hd => ?_
        · rw [dir_modifyDir_self, hb]
          rfl
        · rw [dir_modifyDir_of_ne hd]
      · rw [hrd, streams_modifyDir]
        exact hf.streams
      · simp [History.completes, hmr] at hb

/-- A frame that is about no block. -/
theorem Follows.note (hcm : h.completes d f = none)
    (hon : (h.read d f).open_block = h.open_block)
    (hbl : ∀ d', (q.dir d').partial_block = (p.dir d').partial_block)
    (hss : ∀ s, q.streams.lookup s = tracked (h.read d f).notes s) : Reads h p d f q where
  follows := ⟨fun d' => by rw [hon, hbl]; exact hf.open_block d', hss⟩
  events b hb := by simp [hcm] at hb

theorem Follows.handleData (hkn : f.kind = .data) : Reads h p d f (p.handleData d f) := by
  have hcm : h.completes d f = none := by simp [History.completes, hkn]
  have hrd : h.read d f = if f.has END_STREAM then h.note (.ended d f.stream_id) else h := by
    simp [History.read, hcm, hkn]
  obtain ⟨p', hp'⟩ : ∃ p', p' = if f.payload = [] then p
    else p.emit (.body f.stream_id d f.payload) := ⟨_, rfl⟩
  have hsm : p'.streams = p.streams ∧ ∀ d', p'.dir d' = p.dir d' := by
    rw [hp']
    split_ifs
    · exact ⟨rfl, fun _ => rfl⟩
    · exact ⟨rfl, fun d' => by cases d' <;> rfl⟩
  unfold Http2Parser.handleData
  rw [← hp']
  split_ifs with hend
  · rw [if_pos hend] at hrd
    refine hf.note hcm (by rw [hrd]; rfl) (fun d' => ?_) fun s => ?_
    · rw [dir_finishStream, hsm.2]
    · rw [lookup_finishStream, hsm.1, hf.streams, hrd]
      rfl
  · rw [if_neg hend] at hrd
    refine hf.note hcm (by rw [hrd]) (fun d' => ?_) fun s => ?_
    · rw [hsm.2]
    · rw [hsm.1, hf.streams, hrd]

theorem Follows.handleRstStream (hkn : f.kind = .rstStream)
    (hq : p.handleRstStream f = (q, .ok ())) : Reads h p d f q := by
  have hcm : h.completes d f = none := by simp [History.completes, hkn]
  have hrd : h.read d f = h.note (.reset f.stream_id) := by
    simp [History.read, hcm, hkn]
  unfold Http2Parser.handleRstStream at hq
  split_ifs at hq with hsh
  · cases (Prod.mk.inj hq).2
  obtain rfl := (Prod.mk.inj hq).1
  refine hf.note hcm (by rw [hrd]; rfl) (fun d' => by cases d' <;> rfl) fun s => ?_
  calc ((p.setStreams (p.streams.erase f.stream_id)).emit _).streams.lookup s
      = (p.streams.erase f.stream_id).lookup s := rfl
    _ = if s = f.stream_id then none else tracked h.notes s := by
        rw [Table.lookup_erase_eq, hf.streams]
    _ = tracked (h.read d f).notes s := by
        rw [hrd]
        rfl

/-- A frame of a type that neither the history nor the parser's streams know of. -/
theorem Follows.other (hcm : h.completes d f = none)
    (hrd : h.read d f = h) (hbl : ∀ d', (q.dir d').partial_block = (p.dir d').partial_block)
    (hss : q.streams = p.streams) : Reads h p d f q := by
  refine hf.note hcm (by rw [hrd]) hbl fun s => ?_
  rw [hrd, hss, hf.streams]

end

theorem applySettings_frame (s : Settings) :
    (∀ d', ((p.applySettings d s).dir d').partial_block = (p.dir d').partial_block) ∧
      (p.applySettings d s).streams = p.streams := by
  obtain ⟨table_size, frame_size⟩ := s
  constructor
  · intro d'
    cases table_size <;> cases frame_size <;> cases d <;> cases d' <;> rfl
  · cases table_size <;> cases frame_size <;> cases d <;> rfl

/-- One frame: what is tracked stays what the history says. -/
theorem Follows.handleFrame (hf : Follows h p) (hpd : f.Parsed)
    (hq : p.handleFrame d f = (q, .ok ())) : Reads h p d f q := by
  unfold Http2Parser.handleFrame at hq
  split_ifs at hq with hon
  · cases (Prod.mk.inj hq).2
  have hnn : f.kind ≠ .continuation → (p.dir d).partial_block = none := by
    intro hkn
    cases hbl : (p.dir d).partial_block with
    | none => rfl
    | some b => simp [hbl, hkn] at hon
  cases hkn : f.kind with
  | headers =>
    rw [hkn] at hq
    exact hf.beginBlock hpd (.inl hkn) (hnn (by simp [hkn])) hq
  | pushPromise =>
    rw [hkn] at hq
    exact hf.beginBlock hpd (.inr hkn) (hnn (by simp [hkn])) hq
  | continuation =>
    rw [hkn] at hq
    exact hf.continueBlock hkn hq
  | data =>
    rw [hkn] at hq
    obtain rfl := (Prod.mk.inj hq).1
    exact hf.handleData hkn
  | rstStream =>
    rw [hkn] at hq
    exact hf.handleRstStream hkn hq
  | settings =>
    have hcm : h.completes d f = none := by simp [History.completes, hkn]
    have hrd : h.read d f = h := by simp [History.read, hcm, hkn]
    rw [hkn] at hq
    unfold handleSettings at hq
    split_ifs at hq with hack
    · obtain rfl := (Prod.mk.inj hq).1
      exact hf.other hcm hrd (fun _ => rfl) rfl
    · cases hpr : parseSettings f.payload with
      | error e => simp [hpr] at hq
      | ok s =>
        rw [hpr] at hq
        obtain rfl := (Prod.mk.inj hq).1
        exact hf.other hcm hrd (applySettings_frame s).1 (applySettings_frame s).2
  | goAway =>
    have hcm : h.completes d f = none := by simp [History.completes, hkn]
    have hrd : h.read d f = h := by simp [History.read, hcm, hkn]
    rw [hkn] at hq
    unfold handleGoAway at hq
    split_ifs at hq
    · cases (Prod.mk.inj hq).2
    · obtain rfl := (Prod.mk.inj hq).1
      exact hf.other hcm hrd (fun d' => by cases d' <;> rfl) rfl
  | _ =>
    have hcm : h.completes d f = none := by simp [History.completes, hkn]
    have hrd : h.read d f = h := by simp [History.read, hcm, hkn]
    rw [hkn] at hq
    obtain rfl := (Prod.mk.inj hq).1
    exact hf.other hcm hrd (fun _ => rfl) rfl

end Step

/-! ## Whole connections -/

def accept (x : FlowSide × Frame) (p : Http2Parser) : Except Http2Error Http2Parser :=
  match p.handleFrame x.1 x.2 with
  | (q, .ok ()) => .ok q
  | (_, .error e) => .error e

theorem handleFrame_of_accept {x : FlowSide × Frame} {p q : Http2Parser} (h : p.accept x = .ok q) :
    p.handleFrame x.1 x.2 = (q, .ok ()) := by
  unfold accept at h
  rcases hfm : p.handleFrame x.1 x.2 with ⟨r, e | _⟩
  · simp [hfm] at h
  · rw [hfm] at h
    rw [ok.inj h]

theorem history_append (frames : List (FlowSide × Frame)) (x : FlowSide × Frame) :
    history (frames ++ [x]) = (history frames).read x.1 x.2 := by
  rw [history, foldl_append]
  rfl

/-- What is tracked after any frames is what their history says. -/
theorem follows_history {c : Http2Config} {frames : List (FlowSide × Frame)}
    (hpd : ∀ x ∈ frames, x.2.Parsed) {p : Http2Parser}
    (hrun : runs accept frames (withConfig c) = .ok p) : Follows (history frames) p := by
  induction frames using reverseRecOn generalizing p with
  | nil =>
    obtain rfl := ok.inj hrun
    exact ⟨fun d => by cases d <;> rfl, fun _ => rfl⟩
  | append_singleton frames x ih =>
    rw [runs_append] at hrun
    obtain ⟨p', hp', hrun⟩ := bind_eq_ok.mp hrun
    obtain ⟨q, hq, hls⟩ := bind_eq_ok.mp hrun
    obtain rfl := ok.inj hls
    have hf := ih (fun y hy => hpd y (by simp [hy])) hp'
    rw [history_append]
    exact (hf.handleFrame (hpd x (by simp)) (handleFrame_of_accept hq)).follows

/-- In every connection with an orderly history, the first `HEADERS` block of a direction on a stream is
reported as a head and every later one as trailers, and a stream that both sides have ended or that was
reset takes no slot. -/
theorem head_then_trailers (c : Http2Config) (frames : List (FlowSide × Frame)) (d : FlowSide)
    (f : Frame) (hparsed : ∀ x ∈ frames ++ [(d, f)], x.2.Parsed) (p q : Http2Parser)
    (hrun : Except.runs accept frames (withConfig c) = .ok p) (hq : p.accept (d, f) = .ok q)
    (horderly : Orderly (history (frames ++ [(d, f)])).notes) :
    (∀ b, (history frames).completes d f = some b → b.promise = false →
      ∃ fields, q.events = p.events ++
        blockEvents (.block d false b.stream_id ∈ (history frames).notes) d b fields) ∧
    ∀ s, (∀ side, .ended side s ∈ (history (frames ++ [(d, f)])).notes) ∨
      .reset s ∈ (history (frames ++ [(d, f)])).notes → s ∉ q.streams := by
  have hf := follows_history (fun x hx => hparsed x (by simp [hx])) hrun
  obtain ⟨hfs, hes⟩ := hf.handleFrame (hparsed (d, f) (by simp)) (handleFrame_of_accept hq)
  rw [history_append] at horderly ⊢
  refine ⟨fun b hb hps => ?_, fun s hs => ?_⟩
  · rw [History.read, hb] at horderly
    obtain ⟨hfr, hpm, hold⟩ := horderly.of_complete
    obtain ⟨fields, hfl⟩ := hes b hb
    refine ⟨fields, ?_⟩
    rw [hfl]
    congr 2
    rw [Bool.eq_iff_iff, headSeen_tracked hold hfr, decide_eq_true_iff]
    constructor
    · rintro ⟨promise, hbl⟩
      cases promise with
      | true => exact absurd hbl (hpm hps)
      | false => exact hbl
    · exact fun hbl => ⟨false, hbl⟩
  · have hfr : Forgotten ((history frames).read d f).notes s := hs.imp_left fun h => h .responder
    have hnn := (hfs.streams s).trans (tracked_eq_none horderly hfr)
    intro hmem
    obtain ⟨state, hst⟩ := Table.mem_iff_lookup.mp hmem
    rw [hst] at hnn
    cases hnn

def trailedRequest : List (FlowSide × Frame) :=
  [(.initiator, ⟨.headers, END_HEADERS, 1, [0x82], none⟩),
    (.initiator, ⟨.headers, END_HEADERS ||| END_STREAM, 1, [0x00, 1, 120, 1, 121], none⟩)]

def endingResponse : Frame := ⟨.headers, END_HEADERS ||| END_STREAM, 1, [0x88], none⟩

/-- The response to a request with trailers is a head, and the stream is over. -/
theorem head_then_trailers_exchange : ∃ p q,
    Except.runs accept trailedRequest (withConfig .default) = .ok p ∧
    p.accept (.responder, endingResponse) = .ok q ∧
    (∃ fields, q.events = p.events ++
      blockEvents (.block .responder false 1 ∈ (history trailedRequest).notes) .responder
        endingResponse.announced fields) ∧ 1 ∉ q.streams := by
  have hok : (runs accept (trailedRequest ++ [(.responder, endingResponse)])
      (withConfig .default)).isOk := by decide +kernel
  obtain ⟨r, hr⟩ : ∃ r, runs accept (trailedRequest ++ [(.responder, endingResponse)])
      (withConfig .default) = .ok r := by
    cases hrun : runs accept (trailedRequest ++ [(.responder, endingResponse)])
        (withConfig .default) with
    | error e => simp [hrun, Except.toBool] at hok
    | ok r => exact ⟨r, rfl⟩
  rw [runs_append] at hr
  obtain ⟨p, hp, hr⟩ := bind_eq_ok.mp hr
  obtain ⟨q, hq, -⟩ := bind_eq_ok.mp hr
  have hpd : ∀ x ∈ trailedRequest ++ [(.responder, endingResponse)], x.2.Parsed := by
    simp only [trailedRequest, cons_append, nil_append, forall_mem_cons]
    refine ⟨⟨frameBytes 0x1 0x4 1 [0x82], 16384, 10, by decide +kernel⟩,
      ⟨frameBytes 0x1 0x5 1 [0x00, 1, 120, 1, 121], 16384, 14, by decide +kernel⟩,
      ⟨frameBytes 0x1 0x5 1 [0x88], 16384, 10, by decide +kernel⟩, by simp⟩
  have hbh := head_then_trailers .default trailedRequest .responder endingResponse hpd p q hp hq
    (by decide)
  refine ⟨p, q, hp, hq, hbh.1 endingResponse.announced rfl rfl, hbh.2 1 (.inl fun side => ?_)⟩
  cases side <;> decide

/-- A request, a response that ends its stream, and the client's trailers. -/
def lateTrailers : List (FlowSide × Frame) :=
  [(.initiator, ⟨.headers, END_HEADERS, 1, [0x82], none⟩),
    (.responder, ⟨.headers, END_HEADERS ||| END_STREAM, 1, [0x88], none⟩),
    (.initiator, ⟨.headers, END_HEADERS ||| END_STREAM, 1, [0x00, 1, 120, 1, 121], none⟩)]

/-- A stream is promised, and its response follows. -/
def promisedResponse : List (FlowSide × Frame) :=
  [(.responder, ⟨.pushPromise, END_HEADERS, 1, [0x82], some 2⟩),
    (.responder, ⟨.headers, END_HEADERS, 2, [0x88], none⟩)]

/-- The events and the streams that frames lead to. -/
def report (frames : List (FlowSide × Frame)) : Except Http2Error (List Http2Event × List ℕ) :=
  (Except.runs accept frames new).map fun p => (p.events, p.streams.keys)

/-- The client's trailers are reported as a head, and the stream that both sides have ended takes a
slot; the response on a promised stream is reported as trailers. -/
theorem late_block_starts_over :
    report lateTrailers = .ok ([.head ⟨1, .initiator, [(ascii ":method", ascii "GET")], false⟩,
      .head ⟨1, .responder, [(ascii ":status", ascii "200")], true⟩, .end_ 1 .responder,
      .head ⟨1, .initiator, [(ascii "x", ascii "y")], true⟩, .end_ 1 .initiator], [1]) ∧
    (∀ side, .ended side 1 ∈ (history lateTrailers).notes) ∧
    report promisedResponse = .ok ([.head ⟨2, .responder, [(ascii ":method", ascii "GET")], false⟩,
      .trailers 2 .responder [(ascii ":status", ascii "200")]], [2]) := by
  refine ⟨?_, ?_, ?_⟩
  · decide +kernel
  · intro side
    cases side <;> decide
  · decide +kernel

end Http2Parser

end Flowscope.Http2
