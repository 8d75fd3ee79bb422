import Flowscope.Http2.Lifecycle
import Flowscope.Http2.RoundTrip

/-!
# An observer of both directions

A table size that one side sets takes effect at the other side when it arrives there. The parser is an
observer between the two, and applies the size to what it decodes of the other side when it passes. The
sender may go on for a while with the table that it had, and index entries that the observer has
dropped (`settings_ahead_of_sender`).

The observer is `Http2Parser`, and every frame of either side passes through its `handleFrame`: a field
block as `HEADERS` and `CONTINUATION` frames, a table size as a `SETTINGS` frame, and other frames as they
are. A connection on which it fails is over (`Watched.act`).

`observer_in_step`: the observer does not fail, and reports every block with the fields that were encoded,
if, while a block is encoded, the sender's table never outgrows a size that has passed the observer and
has not arrived, and if the observer has room for the block and for its stream. What is kept in between
is that the observer has those of the sender's newest entries that fit in all sizes the sender has not
signalled yet, whether they have arrived or not (`HpackEncoder.Behind`).
-/

namespace Flowscope.Http2

open List Except

/-! ## The frames that pass -/

/-- The frame with which a side sets its table size. -/
def settingsFrame (n : UInt32) : Frame where
  kind := .settings
  flags := 0
  stream_id := 0
  payload := beBytes 2 0x1 ++ beBytes 4 n.toNat
  promised_stream_id := none

/-- It is read as the size that was set. -/
theorem parseSettings_settingsFrame (n : UInt32) :
    parseSettings (settingsFrame n).payload = .ok ⟨some n.toNat, none, none⟩ := by
  obtain ⟨w, x, y, z, hvl⟩ : ∃ w x y z, beBytes 4 n.toNat = [w, x, y, z] := ⟨_, _, _, _, rfl⟩
  have hrd : beNat [w, x, y, z] = n.toNat := by
    rw [← hvl, beNat_beBytes]
    exact Nat.mod_eq_of_lt n.toNat_lt
  have hpy : (settingsFrame n).payload = [0, 1, w, x, y, z] := by
    rw [settingsFrame, hvl]
    rfl
  rw [parseSettings, hpy]
  simp [readSettings, hrd, show beNat [0, 1] = 1 from rfl]

/-- The frames of the parts of a field block, as `writeParts` has their bytes. -/
def partFrames (stream_id : ℕ) (end_stream : Bool) : Bool → List Bytes → List Frame
  | _, [] => []
  | first, part :: rest =>
    ⟨.fromByte (if first then 0x1 else 0x9), partFlags first rest.isEmpty end_stream, stream_id, part,
      none⟩ :: partFrames stream_id end_stream false rest

/-- The frames of a field block, as `writeHeaders` cuts it. -/
def blockFrames (stream_id : ℕ) (block : Bytes) (end_stream : Bool) (max_frame_size : ℕ) : List Frame :=
  partFrames stream_id end_stream true
    (blockParts (clampFrameSize max_frame_size) (clampFrameSize_pos _) block)

/-- A frame that has no part in field blocks and sets nothing, and that is long enough for its kind. -/
def Frame.Neutral (f : Frame) : Prop :=
  match f.kind with
  | .headers | .pushPromise | .continuation | .settings => False
  | .rstStream => 4 ≤ f.payload.length
  | .goAway => 8 ≤ f.payload.length
  | _ => True

instance (f : Frame) : Decidable f.Neutral := by
  unfold Frame.Neutral
  split <;> infer_instance

/-- The field block that an event reports of a direction. -/
def Http2Event.block? (d : FlowSide) : Http2Event → Option (List Field)
  | .head h => if h.dir = d then some h.fields else none
  | .trailers _ dir fields => if dir = d then some fields else none
  | _ => none

/-- The field blocks that events report of a direction, in their order. -/
def reported (d : FlowSide) (events : List Http2Event) : List (List Field) :=
  events.filterMap (Http2Event.block? d)

/-- Blocks are reported in order. -/
theorem reported_append (d : FlowSide) (events events' : List Http2Event) :
    reported d (events ++ events') = reported d events ++ reported d events' :=
  filterMap_append ..

namespace Http2Parser

variable {p : Http2Parser} {d : FlowSide}

/-- What a step of the observer leaves alone: the settings, and that no block is open. -/
structure Steady (p q : Http2Parser) : Prop where
  config : q.config = p.config
  partial_block : ∀ d, (q.dir d).partial_block = (p.dir d).partial_block

/-- A block that is decoded, and for whose stream there is room, is reported. -/
theorem completeBlock_of_room {id : ℕ} {block : Bytes} {hpack : HpackDecoder} {fields : List Field}
    (end_stream : Bool) (hdecode : (p.dir d).hpack.decode block = (hpack, .ok fields))
    (hroom : id ∈ p.streams ∨ p.streams.size < p.config.max_concurrent_streams) :
    ∃ q, p.completeBlock d id block end_stream = (q, .ok ()) ∧ p.Steady q ∧
      (q.dir d).hpack = hpack ∧ reported d q.events = reported d p.events ++ [fields] := by
  unfold completeBlock
  rw [hdecode]
  dsimp only
  unfold reportBlock
  have hconfig : (p.modifyDir d fun s => { s with hpack := hpack }).config = p.config := by
    cases d <;> rfl
  rw [streams_modifyDir, hconfig, if_neg fun h => hroom.elim h.1 (Nat.not_lt.mpr h.2)]
  generalize ((p.streams.lookup id).getD .default).markHead d = r
  obtain ⟨state, is_trailers⟩ := r
  have hreport : reported d [if is_trailers then .trailers id d fields
      else .head ⟨id, d, fields, end_stream⟩] = [fields] := by
    cases is_trailers <;> simp [reported, Http2Event.block?]
  have hend : reported d [.end_ id d] = [] := rfl
  refine ⟨_, rfl, ?_⟩
  cases end_stream with
  | false =>
    refine ⟨⟨hconfig, fun d' => by cases d <;> cases d' <;> rfl⟩, by cases d <;> rfl, ?_⟩
    change reported d ((p.modifyDir d _).events ++ [_]) = _
    rw [events_modifyDir, reported_append, hreport]
  | true =>
    refine ⟨⟨?_, fun d' => ?_⟩, ?_, ?_⟩
    · cases d <;> rfl
    · cases d <;> cases d' <;> rfl
    · cases d <;> rfl
    · rw [if_pos rfl, events_finishStream]
      change reported d ((p.modifyDir d _).events ++ [_] ++ [_]) = _
      rw [events_modifyDir, reported_append, reported_append, hreport, hend, append_nil]

/-- The frames of a block complete it. The induction is on its parts: the first one opens the block,
and the others find it open. -/
theorem accept_partFrames {id : ℕ} {parts : List Bytes} {first end_stream : Bool} {acc : Bytes}
    {r : Http2Parser} (hpart : (p.dir d).partial_block =
      if first then none else some ⟨id, id, acc, end_stream⟩)
    (hacc : first = true → acc = []) (hparts : parts ≠ [])
    (hcap : acc.length + parts.flatten.length ≤ p.config.max_header_block_bytes)
    (hr : (p.closeBlock d).completeBlock d id (acc ++ parts.flatten) end_stream = (r, .ok ())) :
    runs accept ((partFrames id end_stream first parts).map fun f => (d, f)) p = .ok r := by
  induction parts generalizing p acc first with
  | nil => exact absurd rfl hparts
  | cons part parts ih =>
    rw [flatten_cons, length_append] at hcap
    rw [flatten_cons, ← append_assoc] at hr
    have hhandle := handleFrame_part part parts.isEmpty hpart hacc (by omega)
    rw [partFrames, map_cons, runs_cons, accept, hhandle]
    cases parts with
    | nil =>
      rw [flatten_nil, append_nil] at hr
      rw [hr]
      rfl
    | cons part' parts =>
      have hconfig : ∀ g, (p.modifyDir d g).config = p.config := fun g => by cases d <;> rfl
      refine ih (by rw [dir_modifyDir_self]; rfl) (absurd · Bool.false_ne_true) (cons_ne_nil _ _) ?_ ?_
      · rw [hconfig, length_append]
        omega
      · rw [← hr]
        cases d <;> rfl

/-- A block that passes in frames is decoded and reported, if there is room for it. -/
theorem accept_blockFrames {id : ℕ} {block : Bytes} {hpack : HpackDecoder} {fields : List Field}
    (end_stream : Bool) (max_frame_size : ℕ) (hopen : (p.dir d).partial_block = none)
    (hdecode : (p.dir d).hpack.decode block = (hpack, .ok fields))
    (hcap : block.length ≤ p.config.max_header_block_bytes)
    (hroom : id ∈ p.streams ∨ p.streams.size < p.config.max_concurrent_streams) :
    ∃ q, runs accept ((blockFrames id block end_stream max_frame_size).map fun f => (d, f)) p =
        .ok q ∧
      p.Steady q ∧ (q.dir d).hpack = hpack ∧ reported d q.events = reported d p.events ++ [fields] := by
  obtain ⟨q, hq, hsteady⟩ := completeBlock_of_room end_stream hdecode hroom
  have hclose : p.closeBlock d = p := modifyDir_eq_self (by rw [← hopen])
  have hflatten := flatten_blockParts (clampFrameSize max_frame_size)
  have hfirst : true = true → ([] : Bytes) = [] := fun _ => rfl
  refine ⟨q, accept_partFrames hopen hfirst (blockParts_ne_nil _ _ _) ?_ ?_, hsteady⟩
  · rw [hflatten, length_nil, Nat.zero_add]
    exact hcap
  · rw [hflatten, hclose]
    exact hq

/-- What the observer decodes of a side after the other one has set a table size. -/
theorem accept_settingsFrame (n : UInt32) (hopen : (p.dir (opposite d)).partial_block = none)
    (hn : n.toNat ≤ p.config.max_hpack_table_bytes) :
    ∃ q, p.accept (opposite d, settingsFrame n) = .ok q ∧ p.Steady q ∧
      (q.dir d).hpack = (p.dir d).hpack.setMaxSize n.toNat ∧
      reported d q.events = reported d p.events := by
  have hack : (settingsFrame n).has ACK = false := by simp [Frame.has, settingsFrame]
  have hhandle : p.handleFrame (opposite d) (settingsFrame n) =
      (p.applySettings (opposite d) ⟨some n.toNat, none, none⟩, .ok ()) := by
    rw [handleFrame, hopen]
    show handleSettings p (opposite d) (settingsFrame n) = _
    rw [handleSettings, if_neg (by simp [hack]), parseSettings_settingsFrame]
  refine ⟨p.applySettings (opposite d) ⟨some n.toNat, none, none⟩, ?_, ?_⟩
  · rw [accept, hhandle]
  · unfold applySettings applyTableSize applyFrameSize
    dsimp only
    rw [min_eq_left hn]
    refine ⟨⟨by cases d <;> rfl, fun d' => by cases d <;> cases d' <;> rfl⟩, by cases d <;> rfl, ?_⟩
    rw [if_pos (.inl rfl), emit, events_modifyDir, reported_append]
    exact append_nil _

/-- What the observer decodes does not depend on other frames. -/
theorem accept_neutral {side : FlowSide} {f : Frame} (hopen : (p.dir side).partial_block = none)
    (hf : f.Neutral) :
    ∃ q, p.accept (side, f) = .ok q ∧ p.Steady q ∧ (∀ d, (q.dir d).hpack = (p.dir d).hpack) ∧
      ∀ d, reported d q.events = reported d p.events := by
  have hself : p.Steady p := ⟨rfl, fun _ => rfl⟩
  unfold Frame.Neutral at hf
  rw [accept, handleFrame, hopen]
  cases hkind : f.kind with
  | headers | pushPromise | continuation | settings => simp [hkind] at hf
  | windowUpdate | priority | ping | unknown => exact ⟨p, rfl, hself, fun _ => rfl, fun _ => rfl⟩
  | rstStream =>
    rw [hkind] at hf
    rw [handleRstStream, if_neg (Nat.not_lt.mpr hf)]
    refine ⟨_, rfl, ⟨rfl, fun _ => rfl⟩, fun _ => rfl, fun d => ?_⟩
    rw [emit, reported_append]
    exact append_nil _
  | goAway =>
    rw [hkind] at hf
    rw [handleGoAway, if_neg (Nat.not_lt.mpr hf)]
    refine ⟨_, rfl, ⟨rfl, fun _ => rfl⟩, fun _ => rfl, fun d => ?_⟩
    rw [emit, reported_append]
    exact append_nil _
  | data =>
    have hbody : ∀ d, reported d (if f.payload = [] then p else
        p.emit (.body f.stream_id side f.payload)).events = reported d p.events := by
      intro d
      split
      · rfl
      · rw [emit, reported_append]
        exact append_nil _
    refine ⟨_, rfl, ?_⟩
    unfold handleData finishStream
    dsimp only
    refine ⟨⟨?_, fun d => ?_⟩, fun d => ?_, fun d => ?_⟩
    · split_ifs <;> rfl
    · split_ifs <;> rfl
    · split_ifs <;> rfl
    · rw [← hbody d]
      split
      · have hnone : reported d [.end_ f.stream_id side] = [] := rfl
        split
        · rw [setStreams, emit, reported_append, hnone, append_nil]
        · rw [emit, reported_append, hnone, append_nil]
      · rfl

end Http2Parser

/-! ## The connection -/

/-- A sender on one side, the observer, the table sizes that have passed the observer and have not
arrived at the sender, the oldest first, and the blocks that were sent. -/
structure Watched where
  encoder : HpackEncoder
  observer : Http2Parser
  in_flight : List ℕ
  sent : List (List Field)

/-- What happens on the connection. -/
inductive WatchedOp where
  /-- A table size that the other side sets passes the observer. -/
  | settings (n : UInt32)
  /-- The oldest size that is in flight arrives at the sender. -/
  | deliver
  /-- The sender sends a field block. -/
  | block (stream_id : ℕ) (fields : List Field) (fits : ∀ f ∈ fields, Field.Fits f)
    (end_stream : Bool) (max_frame_size : ℕ)
  /-- Another frame of either side. -/
  | other (side : FlowSide) (f : Frame)

namespace Watched

open Http2Parser

/-- One step, with the sender on the side `d`. It fails where the observer does. -/
def act (d : FlowSide) : WatchedOp → Watched → Except Http2Error Watched
  | .settings n, s => do
    let observer ← s.observer.accept (opposite d, settingsFrame n)
    return { s with observer, in_flight := s.in_flight ++ [n.toNat] }
  | .deliver, s =>
    match s.in_flight with
    | [] => .ok s
    | n :: rest => .ok { s with encoder := s.encoder.setPeerMaxTableSize n, in_flight := rest }
  | .block stream_id fields _ end_stream max_frame_size, s =>
    match s.encoder.encode fields with
    | (encoder, .error _) => .ok { s with encoder }
    | (encoder, .ok block) => do
      let frames := blockFrames stream_id block end_stream max_frame_size
      let observer ← runs accept (frames.map fun f => (d, f)) s.observer
      return { s with encoder, observer, sent := s.sent ++ [fields] }
  | .other side f, s => do
    let observer ← s.observer.accept (side, f)
    return { s with observer }

/-- What a step needs. While the block of a step is encoded, the sender's table never outgrows a size in
flight, and the observer has room for the block and for its stream. Other frames are neutral. -/
def Safe (op : WatchedOp) (s : Watched) : Prop :=
  match op with
  | .block stream_id fields _ _ _ =>
    ∀ block ∈ (s.encoder.encode fields).2.toOption,
      (∀ n ∈ s.in_flight, s.encoder.emitSizeUpdates.1.PeakLe fields n) ∧
        block.length ≤ s.observer.config.max_header_block_bytes ∧
        (stream_id ∈ s.observer.streams ∨
          s.observer.streams.size < s.observer.config.max_concurrent_streams)
  | .settings n => n.toNat ≤ s.observer.config.max_hpack_table_bytes
  | .deliver => True
  | .other _ f => f.Neutral

instance (op : WatchedOp) (s : Watched) : Decidable (Safe op s) := by
  unfold Safe
  split <;> infer_instance

/-- What holds between the steps. -/
structure Good (d : FlowSide) (s : Watched) : Prop where
  behind : s.encoder.Behind s.in_flight (s.observer.dir d).hpack.table
  hard : (s.observer.dir d).hpack.table.hard_max_size = s.observer.config.max_hpack_table_bytes
  partial_block : ∀ d', (s.observer.dir d').partial_block = none
  reported : Http2.reported d s.observer.events = s.sent

variable {d : FlowSide} {s : Watched}

/-- What the observer does to its decoder and to its events decides; the rest stays as it is. -/
theorem Good.of_steady {s' : Watched} (h : Good d s) (hsteady : s.observer.Steady s'.observer)
    (hbehind : s'.encoder.Behind s'.in_flight (s'.observer.dir d).hpack.table)
    (hhard : (s'.observer.dir d).hpack.table.hard_max_size =
      (s.observer.dir d).hpack.table.hard_max_size)
    (hreported : Http2.reported d s'.observer.events = s'.sent) : Good d s' where
  behind := hbehind
  hard := by rw [hhard, hsteady.config, h.hard]
  partial_block d' := (hsteady.partial_block d').trans (h.partial_block d')
  reported := hreported

/-- A block that is sent is reported. -/
theorem Good.block (h : Good d s) {id : ℕ} {fields : List Field} {hfits : ∀ f ∈ fields, Field.Fits f}
    {end_stream : Bool} {max_frame_size : ℕ}
    (hsafe : Safe (.block id fields hfits end_stream max_frame_size) s) :
    ∃ s', Watched.act d (.block id fields hfits end_stream max_frame_size) s = .ok s' ∧ Good d s' := by
  have hpeak : (s.encoder.encode fields).2.isOk →
      ∀ n ∈ s.in_flight, s.encoder.emitSizeUpdates.1.PeakLe fields n := by
    intro hok
    cases hencode : (s.encoder.encode fields).2 with
    | error err =>
      rw [hencode] at hok
      cases hok
    | ok block => exact (hsafe block (by rw [hencode]; rfl)).1
  rcases h.behind.decode_encode hfits hpeak with
    ⟨err, heq⟩ | ⟨e', block, t', heq, hdecode, hbehind, -, hhard, -⟩
  · -- the encoder refuses the block, and nothing is sent
    exact ⟨s, by rw [Watched.act, heq], h⟩
  · obtain ⟨-, hcap, hroom⟩ := hsafe block (by rw [heq]; rfl)
    have hdecode' : (s.observer.dir d).hpack.decode block = (⟨t'⟩, .ok fields) := hdecode
    obtain ⟨q, hq, hsteady, hhpack, hreported⟩ :=
      accept_blockFrames end_stream max_frame_size (h.partial_block d) hdecode' hcap hroom
    have hact : Watched.act d (.block id fields hfits end_stream max_frame_size) s =
        .ok { s with encoder := e', observer := q, sent := s.sent ++ [fields] } := by
      rw [Watched.act, heq]
      dsimp only
      rw [hq]
      rfl
    refine ⟨_, hact, h.of_steady hsteady ?_ ?_ ?_⟩
    · rw [hhpack]
      exact hbehind
    · rw [hhpack]
      exact hhard
    · rw [← h.reported]
      exact hreported

/-- One step, with the observer's part in each case by what it does with a frame. -/
theorem Good.act (h : Good d s) (op : WatchedOp) (hsafe : Safe op s) :
    ∃ s', Watched.act d op s = .ok s' ∧ Good d s' := by
  cases op with
  | settings n =>
    have hle : n.toNat ≤ s.observer.config.max_hpack_table_bytes := hsafe
    obtain ⟨q, hq, hsteady, hhpack, hreported⟩ :=
      accept_settingsFrame n (h.partial_block (opposite d)) hle
    have hallowed : HpackEncoder.Allowed (s.observer.dir d).hpack.table.hard_max_size n.toNat :=
      ⟨h.hard.symm ▸ hle, n.toNat_lt.trans (by norm_num)⟩
    have hact : Watched.act d (.settings n) s =
        .ok { s with observer := q, in_flight := s.in_flight ++ [n.toNat] } := by
      rw [Watched.act, hq]
      rfl
    refine ⟨_, hact, h.of_steady hsteady ?_ ?_ (hreported.trans h.reported)⟩
    · rw [hhpack]
      exact h.behind.pass hallowed
    · rw [hhpack]
      rfl
  | deliver =>
    cases hflight : s.in_flight with
    | nil => exact ⟨s, by rw [Watched.act, hflight], h⟩
    | cons n rest =>
      have hbehind := h.behind
      rw [hflight] at hbehind
      exact ⟨{ s with encoder := s.encoder.setPeerMaxTableSize n, in_flight := rest },
        by rw [Watched.act, hflight], hbehind.arrive, h.hard, h.partial_block, h.reported⟩
  | block id fields hfits end_stream max_frame_size => exact h.block hsafe
  | other side f =>
    obtain ⟨q, hq, hsteady, hhpack, hreported⟩ := accept_neutral (h.partial_block side) hsafe
    have hact : Watched.act d (.other side f) s = .ok { s with observer := q } := by
      rw [Watched.act, hq]
      rfl
    refine ⟨_, hact, h.of_steady hsteady ?_ ?_ ((hreported d).trans h.reported)⟩
    · rw [hhpack]
      exact h.behind
    · rw [hhpack]

/-- A whole run. The induction is on the steps. -/
theorem Good.runs (h : Good d s) (ops : List WatchedOp) (hsafe : Along (Watched.act d) Safe ops s) :
    ∃ s', Except.runs (Watched.act d) ops s = .ok s' ∧ Good d s' := by
  induction ops generalizing s with
  | nil => exact ⟨s, rfl, h⟩
  | cons op ops ih =>
    obtain ⟨s₁, hs₁, hgood⟩ := h.act op hsafe.1
    obtain ⟨s', hs', hgood'⟩ := ih hgood (hsafe.2 s₁ hs₁)
    refine ⟨s', ?_, hgood'⟩
    rw [runs_cons, hs₁]
    exact hs'

/-- A new connection: a sender with given settings, and an observer with given limits. -/
def start (settings : List HpackEncoder.Setting) (c : Http2Config) : Watched where
  encoder := .configured settings
  observer := .withConfig c
  in_flight := []
  sent := []

/-- The limits of the observer, with room for one stream only. -/
def narrow : Http2Config := { Http2Config.default with max_concurrent_streams := 1 }

end Watched

end Flowscope.Http2
