import Flowscope.Flow.Basic
import Flowscope.Http2.Frame
import Flowscope.Lib.Table

/-!
# The HTTP/2 parser

The parser of `src/http2/stream.rs` for one connection. Bytes are fed to it per direction, and it
queues events. A function of the program that returns a `Result` and changes the parser in place
returns the parser and the result here: what was changed before a failure stays changed.
-/

namespace Flowscope.Http2

/-- A complete field block. -/
structure StreamHead where
  stream_id : ℕ
  dir : FlowSide
  fields : List Field
  /-- Nothing follows in this direction. -/
  end_stream : Bool
deriving DecidableEq, Repr

/-- What the parser reports. -/
inductive Http2Event where
  | head (h : StreamHead)
  | body (stream_id : ℕ) (dir : FlowSide) (data : Bytes)
  /-- A field block after the head. -/
  | trailers (stream_id : ℕ) (dir : FlowSide) (fields : List Field)
  /-- The stream is complete in this direction. -/
  | end_ (stream_id : ℕ) (dir : FlowSide)
  | streamReset (stream_id error_code : ℕ)
  | goAway (last_stream_id error_code : ℕ)
  | settings (dir : FlowSide) (header_table_size max_frame_size : Option ℕ)
deriving DecidableEq, Repr

/-- The limits of a parser. -/
structure Http2Config where
  max_frame_size : ℕ
  max_header_block_bytes : ℕ
  max_hpack_table_bytes : ℕ
  max_concurrent_streams : ℕ
  /-- The unparsed bytes that a direction may hold. -/
  max_buffered_bytes : ℕ
  require_preface : Bool

namespace Http2Config

/-- The largest frame that can be assembled: a larger one would not fit in the buffer. -/
def effectiveMaxFrameSize (c : Http2Config) : ℕ :=
  min (min (c.max_buffered_bytes - FRAME_HEADER_LEN) (2^32 - 1)) c.max_frame_size

/-- The default limits. -/
def default : Http2Config where
  max_frame_size := 1024 * 1024
  max_header_block_bytes := 64 * 1024
  max_hpack_table_bytes := 64 * 1024
  max_concurrent_streams := 256
  max_buffered_bytes := 1024 * 1024
  require_preface := true

end Http2Config

/-- A field block that has not been completed. -/
structure PartialBlock where
  /-- The stream that its `CONTINUATION` frames arrive on. -/
  continuation_stream : ℕ
  /-- The stream that it is about; another one if it is that of a promise. -/
  describes_stream : ℕ
  bytes : Bytes
  end_stream : Bool
deriving DecidableEq

/-- Whether a stream has had its head, per direction. -/
structure StreamState where
  head_seen_request : Bool
  head_seen_response : Bool
deriving DecidableEq, Repr

namespace StreamState

/-- Nothing was seen of the stream. -/
def default : StreamState := ⟨false, false⟩

/-- Whether the head of a direction has been seen. -/
def headSeen (s : StreamState) : FlowSide → Bool
  | .initiator => s.head_seen_request
  | .responder => s.head_seen_response

/-- Record the head of a direction. The result says whether it had been seen before. -/
def markHead (s : StreamState) : FlowSide → StreamState × Bool
  | .initiator => ({ s with head_seen_request := true }, s.head_seen_request)
  | .responder => ({ s with head_seen_response := true }, s.head_seen_response)

end StreamState

/-- What is known of the preface. -/
inductive Preface where
  | required
  /-- It is taken if it is there. -/
  | optional
  | seen
deriving DecidableEq, Repr

/-- One direction of a connection. -/
structure DirState where
  buf : Bytes
  hpack : HpackDecoder
  /-- The field block that is being assembled. -/
  partial_block : Option PartialBlock
  /-- The largest frame that this side may send. -/
  max_frame_size : ℕ
  preface : Preface
  done : Bool

/-- A direction from which nothing came. -/
def DirState.new (cfg : Http2Config) (preface : Preface) : DirState where
  buf := []
  hpack := .new 4096 cfg.max_hpack_table_bytes
  partial_block := none
  max_frame_size := cfg.effectiveMaxFrameSize
  preface := preface
  done := false

/-- The part of a direction that is about the bytes and not about the frames. -/
structure Shell where
  buf : Bytes
  preface : Preface
  done : Bool

/-- The shell of a direction. -/
def DirState.shell (s : DirState) : Shell := ⟨s.buf, s.preface, s.done⟩

/-- A direction in another shell. -/
def DirState.within (s : DirState) (o : Shell) : DirState :=
  { s with buf := o.buf, preface := o.preface, done := o.done }

/-- The other side of a connection. -/
def opposite : FlowSide → FlowSide
  | .initiator => .responder
  | .responder => .initiator

/-- The parser of a connection. -/
structure Http2Parser where
  config : Http2Config
  request : DirState
  response : DirState
  streams : Table ℕ StreamState
  events : List Http2Event
  error : Option Http2Error

namespace Http2Parser

/-- A parser with given limits. -/
def withConfig (config : Http2Config) : Http2Parser where
  config := config
  request := .new config (if config.require_preface then .required else .optional)
  -- a server sends no preface
  response := .new config .seen
  streams := ∅
  events := []
  error := none

/-- A parser with the default limits. -/
def new : Http2Parser := withConfig .default

/-- The state of one direction. -/
def dir (p : Http2Parser) : FlowSide → DirState
  | .initiator => p.request
  | .responder => p.response

/-- Change one direction. -/
def modifyDir (p : Http2Parser) (d : FlowSide) (f : DirState → DirState) : Http2Parser :=
  match d with
  | .initiator => { p with request := f p.request }
  | .responder => { p with response := f p.response }

section ModifyDir

variable {p : Http2Parser} {d d' : FlowSide} {g : DirState → DirState}

/-- The direction that is changed. -/
theorem dir_modifyDir_self : (p.modifyDir d g).dir d = g (p.dir d) := by
  cases d <;> rfl

/-- The other direction. -/
theorem dir_modifyDir_of_ne (hd : d' ≠ d) : (p.modifyDir d g).dir d' = p.dir d' := by
  cases d <;> cases d' <;> first | rfl | exact absurd rfl hd

/-- A change that changes nothing. -/
theorem modifyDir_eq_self (hg : g (p.dir d) = p.dir d) : p.modifyDir d g = p := by
  cases d with
  | initiator => exact congrArg (fun s => { p with request := s }) hg
  | responder => exact congrArg (fun s => { p with response := s }) hg

/-- Changing a direction keeps the streams. -/
theorem streams_modifyDir : (p.modifyDir d g).streams = p.streams := by
  cases d <;> rfl

/-- It keeps the events. -/
theorem events_modifyDir : (p.modifyDir d g).events = p.events := by
  cases d <;> rfl

end ModifyDir

/-- Report an event. -/
def emit (p : Http2Parser) (e : Http2Event) : Http2Parser := { p with events := p.events ++ [e] }

/-- Change the streams that are tracked. -/
def setStreams (p : Http2Parser) (streams : Table ℕ StreamState) : Http2Parser :=
  { p with streams := streams }

/-- A direction of a stream ends. The stream is forgotten when the server ends it. -/
def finishStream (p : Http2Parser) (stream_id : ℕ) (d : FlowSide) : Http2Parser :=
  let p := p.emit (.end_ stream_id d)
  if d = .responder then p.setStreams (p.streams.erase stream_id) else p

/-- Report the fields of a block: they are trailers if the stream has had its head. -/
def reportBlock (p : Http2Parser) (d : FlowSide) (stream_id : ℕ) (fields : List Field)
    (end_stream : Bool) : Http2Parser × Except Http2Error Unit :=
  if stream_id ∉ p.streams ∧ p.config.max_concurrent_streams ≤ p.streams.size then
    (p, .error .tooManyStreams)
  else
    let (state, is_trailers) := ((p.streams.lookup stream_id).getD .default).markHead d
    let p := p.setStreams (p.streams.put stream_id state)
    let p := p.emit (if is_trailers then .trailers stream_id d fields
      else .head ⟨stream_id, d, fields, end_stream⟩)
    (if end_stream then p.finishStream stream_id d else p, .ok ())

/-- Decode a complete field block, and report it. -/
def completeBlock (p : Http2Parser) (d : FlowSide) (stream_id : ℕ) (block : Bytes)
    (end_stream : Bool) : Http2Parser × Except Http2Error Unit :=
  -- the table advances with every block, also with one that is not reported
  let (hpack, decoded) := (p.dir d).hpack.decode block
  let p := p.modifyDir d fun s => { s with hpack := hpack }
  match decoded with
  | .error e => (p, .error e)
  | .ok fields => p.reportBlock d stream_id fields end_stream

/-- Start a field block, and complete it if it is whole. -/
def beginBlock (p : Http2Parser) (d : FlowSide) (f : Frame) :
    Http2Parser × Except Http2Error Unit :=
  if p.config.max_header_block_bytes < f.payload.length then (p, .error .headerListTooLong)
  else
    let describes_stream := f.promised_stream_id.getD f.stream_id
    -- a promise does not end the stream that it arrives on
    let end_stream := f.promised_stream_id.isNone && f.has END_STREAM
    if f.has END_HEADERS then p.completeBlock d describes_stream f.payload end_stream
    else
      (p.modifyDir d fun s => { s with
        partial_block := some ⟨f.stream_id, describes_stream, f.payload, end_stream⟩ }, .ok ())

/-- Extend the open field block, and complete it if it is whole. -/
def continueBlock (p : Http2Parser) (d : FlowSide) (f : Frame) :
    Http2Parser × Except Http2Error Unit :=
  match (p.dir d).partial_block with
  | none => (p, .error .unexpectedContinuation)
  | some block =>
    if p.config.max_header_block_bytes < block.bytes.length + f.payload.length then
      (p, .error .headerListTooLong)
    else
      let block := { block with bytes := block.bytes ++ f.payload }
      if ¬f.has END_HEADERS then
        (p.modifyDir d fun s => { s with partial_block := some block }, .ok ())
      else
        (p.modifyDir d fun s => { s with partial_block := none }).completeBlock d
          block.describes_stream block.bytes block.end_stream

/-- A table size, up to the limit. -/
def applyTableSize (p : Http2Parser) (d : FlowSide) : Option ℕ → Http2Parser
  | none => p
  | some n => p.modifyDir d fun s =>
    { s with hpack := s.hpack.setMaxSize (min n p.config.max_hpack_table_bytes) }

/-- A frame size, up to the limit. -/
def applyFrameSize (p : Http2Parser) (d : FlowSide) : Option ℕ → Http2Parser
  | none => p
  | some n => p.modifyDir d fun s =>
    { s with max_frame_size := min n p.config.effectiveMaxFrameSize }

/-- Apply the settings of one side to what the other side sends. -/
def applySettings (p : Http2Parser) (d : FlowSide) (s : Settings) : Http2Parser :=
  let p := p.applyTableSize (opposite d) s.header_table_size
  let p := p.applyFrameSize (opposite d) s.max_frame_size
  if s.header_table_size.isSome ∨ s.max_frame_size.isSome then
    p.emit (.settings d s.header_table_size s.max_frame_size)
  else p

/-- A `DATA` frame. -/
def handleData (p : Http2Parser) (d : FlowSide) (f : Frame) : Http2Parser :=
  let p := if f.payload = [] then p else p.emit (.body f.stream_id d f.payload)
  if f.has END_STREAM then p.finishStream f.stream_id d else p

/-- A `SETTINGS` frame. -/
def handleSettings (p : Http2Parser) (d : FlowSide) (f : Frame) :
    Http2Parser × Except Http2Error Unit :=
  if f.has ACK then (p, .ok ())
  else
    match parseSettings f.payload with
    | .error e => (p, .error e)
    | .ok s => (p.applySettings d s, .ok ())

/-- An `RST_STREAM` frame. -/
def handleRstStream (p : Http2Parser) (f : Frame) : Http2Parser × Except Http2Error Unit :=
  if f.payload.length < 4 then (p, .error .malformedFrame)
  else
    let p := p.setStreams (p.streams.erase f.stream_id)
    (p.emit (.streamReset f.stream_id (beNat (f.payload.take 4))), .ok ())

/-- A `GOAWAY` frame. -/
def handleGoAway (p : Http2Parser) (f : Frame) : Http2Parser × Except Http2Error Unit :=
  if f.payload.length < 8 then (p, .error .malformedFrame)
  else
    let error_code := beNat ((f.payload.drop 4).take 4)
    (p.emit (.goAway (streamId (f.payload.take 4)) error_code), .ok ())

/-- A frame. Within a field block only `CONTINUATION` may come. -/
def handleFrame (p : Http2Parser) (d : FlowSide) (f : Frame) :
    Http2Parser × Except Http2Error Unit :=
  -- an open field block admits nothing but its continuation
  if (p.dir d).partial_block.any fun b =>
      f.kind ≠ .continuation ∨ f.stream_id ≠ b.continuation_stream then
    (p, .error .interleavedContinuation)
  else
    match f.kind with
    | .headers => p.beginBlock d f
    | .pushPromise => p.beginBlock d f
    | .continuation => p.continueBlock d f
    | .data => (p.handleData d f, .ok ())
    | .settings => p.handleSettings d f
    | .rstStream => p.handleRstStream f
    | .goAway => p.handleGoAway f
    | .windowUpdate => (p, .ok ())
    | .priority => (p, .ok ())
    | .ping => (p, .ok ())
    | .unknown _ => (p, .ok ())

/-! ## What handling a frame does not depend on

A frame is handled alike whatever the buffers hold, whatever is known of the preface and of the end of
the two sides, and whatever events are queued before its own. `dress` changes just these. -/

/-- The parser with other shells and another verdict, and with events before its own. -/
def dress (p : Http2Parser) (before : List Http2Event) (o o' : Shell) (error : Option Http2Error) :
    Http2Parser :=
  { p with
    events := before ++ p.events
    request := p.request.within o
    response := p.response.within o'
    error := error }

section Dress

variable {p : Http2Parser} {before : List Http2Event} {o o' : Shell} {err : Option Http2Error}
  {d : FlowSide}

/-- The decoder is not in the shell. -/
theorem hpack_dir_dress : ((p.dress before o o' err).dir d).hpack = (p.dir d).hpack := by
  cases d <;> rfl

/-- The open block is not in the shell. -/
theorem partial_block_dir_dress :
    ((p.dress before o o' err).dir d).partial_block = (p.dir d).partial_block := by
  cases d <;> rfl

/-- A change that does not look at the shell. -/
theorem modifyDir_dress {f : DirState → DirState}
    (hf : ∀ s o, f (s.within o) = (f s).within o) :
    (p.dress before o o' err).modifyDir d f = (p.modifyDir d f).dress before o o' err := by
  cases d with
  | initiator => exact congrArg (fun s => { p.dress before o o' err with request := s }) (hf _ o)
  | responder => exact congrArg (fun s => { p.dress before o o' err with response := s }) (hf _ o')

theorem emit_dress (e : Http2Event) :
    (p.dress before o o' err).emit e = (p.emit e).dress before o o' err := by
  simp only [emit, dress, List.append_assoc]

theorem setStreams_dress (streams : Table ℕ StreamState) :
    (p.dress before o o' err).setStreams streams = (p.setStreams streams).dress before o o' err := rfl

variable (f : Frame) (stream_id : ℕ)

theorem finishStream_dress :
    (p.dress before o o' err).finishStream stream_id d =
      (p.finishStream stream_id d).dress before o o' err := by
  unfold finishStream
  rw [emit_dress]
  split_ifs
  · exact setStreams_dress _
  · rfl

/-- Dress the parser of an outcome. -/
def dressed (r : Http2Parser × Except Http2Error Unit) (before : List Http2Event)
    (o o' : Shell) (err : Option Http2Error) :
    Http2Parser × Except Http2Error Unit :=
  (r.1.dress before o o' err, r.2)

theorem reportBlock_dress (fields : List Field) (end_stream : Bool) :
    (p.dress before o o' err).reportBlock d stream_id fields end_stream =
      dressed (p.reportBlock d stream_id fields end_stream) before o o' err := by
  have hss : (p.dress before o o' err).streams = p.streams := rfl
  have hcn : (p.dress before o o' err).config = p.config := rfl
  unfold reportBlock
  rw [hss, hcn]
  dsimp only
  rw [setStreams_dress, emit_dress, finishStream_dress]
  split_ifs <;> rfl

theorem completeBlock_dress (block : Bytes) (end_stream : Bool) :
    (p.dress before o o' err).completeBlock d stream_id block end_stream =
      dressed (p.completeBlock d stream_id block end_stream) before o o' err := by
  unfold completeBlock
  rw [hpack_dir_dress]
  dsimp only
  rw [modifyDir_dress fun _ _ => rfl]
  cases ((p.dir d).hpack.decode block).2 with
  | error e => rfl
  | ok fields => exact reportBlock_dress _ _ _

theorem beginBlock_dress :
    (p.dress before o o' err).beginBlock d f = dressed (p.beginBlock d f) before o o' err := by
  have hcn : (p.dress before o o' err).config = p.config := rfl
  unfold beginBlock
  rw [hcn]
  dsimp only
  rw [completeBlock_dress, modifyDir_dress fun _ _ => rfl]
  split_ifs <;> rfl

theorem continueBlock_dress :
    (p.dress before o o' err).continueBlock d f = dressed (p.continueBlock d f) before o o' err := by
  have hcn : (p.dress before o o' err).config = p.config := rfl
  unfold continueBlock
  rw [partial_block_dir_dress, hcn]
  cases (p.dir d).partial_block with
  | none => rfl
  | some block =>
    dsimp only
    rw [modifyDir_dress fun _ _ => rfl, modifyDir_dress fun _ _ => rfl, completeBlock_dress]
    split_ifs <;> rfl

theorem applyTableSize_dress (n : Option ℕ) :
    (p.dress before o o' err).applyTableSize d n = (p.applyTableSize d n).dress before o o' err := by
  cases n with
  | none => rfl
  | some n =>
    unfold applyTableSize
    apply modifyDir_dress
    exact fun _ _ => rfl

theorem applyFrameSize_dress (n : Option ℕ) :
    (p.dress before o o' err).applyFrameSize d n = (p.applyFrameSize d n).dress before o o' err := by
  cases n with
  | none => rfl
  | some n =>
    unfold applyFrameSize
    apply modifyDir_dress
    exact fun _ _ => rfl

theorem applySettings_dress (s : Settings) :
    (p.dress before o o' err).applySettings d s = (p.applySettings d s).dress before o o' err := by
  unfold applySettings
  dsimp only
  rw [applyTableSize_dress, applyFrameSize_dress, emit_dress]
  split_ifs <;> rfl

theorem handleData_dress :
    (p.dress before o o' err).handleData d f = (p.handleData d f).dress before o o' err := by
  unfold handleData
  rw [emit_dress]
  dsimp only
  split_ifs
  · exact finishStream_dress _
  · exact finishStream_dress _
  · rfl
  · rfl

theorem handleSettings_dress :
    (p.dress before o o' err).handleSettings d f = dressed (p.handleSettings d f) before o o' err := by
  unfold handleSettings
  split_ifs with hack
  · rfl
  · cases parseSettings f.payload with
    | error e => rfl
    | ok s => exact congrArg (·, _) (applySettings_dress _)

theorem handleRstStream_dress :
    (p.dress before o o' err).handleRstStream f = dressed (p.handleRstStream f) before o o' err := by
  unfold handleRstStream
  rw [setStreams_dress]
  dsimp only
  rw [emit_dress]
  split_ifs <;> rfl

theorem handleGoAway_dress :
    (p.dress before o o' err).handleGoAway f = dressed (p.handleGoAway f) before o o' err := by
  unfold handleGoAway
  dsimp only
  rw [emit_dress]
  split_ifs <;> rfl

/-- No frame looks at the shell. -/
theorem handleFrame_dress :
    (p.dress before o o' err).handleFrame d f = dressed (p.handleFrame d f) before o o' err := by
  unfold handleFrame
  rw [partial_block_dir_dress]
  split_ifs with hon
  · rfl
  cases f.kind with
  | headers => exact beginBlock_dress _
  | pushPromise => exact beginBlock_dress _
  | continuation => exact continueBlock_dress _
  | data => exact congrArg (·, _) (handleData_dress _)
  | settings => exact handleSettings_dress _
  | rstStream => exact handleRstStream_dress _
  | goAway => exact handleGoAway_dress _
  | windowUpdate => rfl
  | priority => rfl
  | ping => rfl
  | unknown _ => rfl

end Dress

variable (p : Http2Parser)

/-- A parser in its own shell. -/
theorem dress_self : p.dress [] p.request.shell p.response.shell p.error = p := rfl

/-- Handling a frame leaves the shells alone, and decides nothing about the connection. -/
theorem shell_handleFrame (d : FlowSide) (f : Frame) :
    (∀ d', ((p.handleFrame d f).1.dir d').shell = (p.dir d').shell) ∧
      (p.handleFrame d f).1.error = p.error := by
  have h : (p.dress [] p.request.shell p.response.shell p.error).handleFrame d f = _ :=
    handleFrame_dress f
  rw [dress_self] at h
  rw [h]
  refine ⟨fun d' => ?_, rfl⟩
  cases d' <;> rfl

/-- A frame changes no buffer. -/
theorem buf_handleFrame (d d' : FlowSide) (f : Frame) :
    ((p.handleFrame d f).1.dir d').buf = (p.dir d').buf :=
  congrArg Shell.buf ((p.shell_handleFrame d f).1 d')

/-! ## What handling a frame keeps -/

/-- What each change that a frame of the direction `d` can make keeps. -/
structure FrameInvariant (d : FlowSide) (P : Http2Parser → Prop) : Prop where
  emit : ∀ p e, P p → P (p.emit e)
  setStreams : ∀ p t, P p → P (p.setStreams t)
  setHpack : ∀ p h, P p → P (p.modifyDir d fun s => { s with hpack := h })
  setPartial : ∀ p b, P p → P (p.modifyDir d fun s => { s with partial_block := b })
  applyTableSize : ∀ p n, P p → P (p.applyTableSize (opposite d) n)
  applyFrameSize : ∀ p n, P p → P (p.applyFrameSize (opposite d) n)

namespace FrameInvariant

variable {d : FlowSide} {P : Http2Parser → Prop} {p : Http2Parser}

variable (h : FrameInvariant d P) (hp : P p)
include h hp

theorem finishStream (id : ℕ) : P (p.finishStream id d) := by
  unfold Http2Parser.finishStream
  split_ifs
  · exact h.setStreams _ _ (h.emit _ _ hp)
  · exact h.emit _ _ hp

theorem completeBlock (id : ℕ) (block : Bytes) (e : Bool) : P (p.completeBlock d id block e).1 := by
  unfold Http2Parser.completeBlock
  dsimp only
  have hdd := h.setHpack p ((p.dir d).hpack.decode block).1 hp
  generalize p.modifyDir d _ = q at hdd ⊢
  cases ((p.dir d).hpack.decode block).2 with
  | error e => exact hdd
  | ok fields =>
    have hrp := fun t e => h.emit _ e (h.setStreams q t hdd)
    unfold reportBlock
    dsimp only
    by_cases hmn : id ∉ q.streams ∧ q.config.max_concurrent_streams ≤ q.streams.size
    · rw [if_pos hmn]
      exact hdd
    · rw [if_neg hmn]
      cases e with
      | true => exact h.finishStream (hrp _ _) id
      | false => exact hrp _ _

variable (f : Frame)

theorem beginBlock : P (p.beginBlock d f).1 := by
  unfold Http2Parser.beginBlock
  split_ifs
  · exact hp
  · exact h.completeBlock hp _ _ _
  · exact h.setPartial _ _ hp

theorem continueBlock : P (p.continueBlock d f).1 := by
  unfold Http2Parser.continueBlock
  cases (p.dir d).partial_block with
  | none => exact hp
  | some block =>
    dsimp only
    split_ifs
    · exact hp
    · exact h.completeBlock (h.setPartial _ _ hp) _ _ _
    · exact h.setPartial _ _ hp

theorem handleData : P (p.handleData d f) := by
  unfold Http2Parser.handleData
  dsimp only
  split_ifs
  · exact h.finishStream hp _
  · exact h.finishStream (h.emit _ _ hp) _
  · exact hp
  · exact h.emit _ _ hp

theorem handleSettings : P (p.handleSettings d f).1 := by
  unfold Http2Parser.handleSettings
  split_ifs
  · exact hp
  cases parseSettings f.payload with
  | error e => exact hp
  | ok s =>
    have hap := h.applyFrameSize _ s.max_frame_size (h.applyTableSize p s.header_table_size hp)
    unfold applySettings
    dsimp only
    split_ifs
    · exact h.emit _ _ hap
    · exact hap

/-- What every change keeps is kept by every frame. -/
theorem handleFrame : P (p.handleFrame d f).1 := by
  unfold Http2Parser.handleFrame
  split_ifs with hon
  · exact hp
  cases f.kind with
  | headers => exact h.beginBlock hp f
  | pushPromise => exact h.beginBlock hp f
  | continuation => exact h.continueBlock hp f
  | data => exact h.handleData hp f
  | settings => exact h.handleSettings hp f
  | rstStream =>
    unfold handleRstStream
    split_ifs
    · exact hp
    · exact h.emit _ _ (h.setStreams _ _ hp)
  | goAway =>
    unfold handleGoAway
    split_ifs
    · exact hp
    · exact h.emit _ _ hp
  | windowUpdate => exact hp
  | priority => exact hp
  | ping => exact hp
  | unknown _ => exact hp

end FrameInvariant

/-! ## Feeding bytes -/

/-- Change what a direction holds. -/
def setBuf (p : Http2Parser) (d : FlowSide) (buf : Bytes) : Http2Parser :=
  p.modifyDir d fun s => { s with buf := buf }

/-- The buffer that was set. -/
@[simp]
theorem buf_setBuf (d : FlowSide) (buf : Bytes) : ((p.setBuf d buf).dir d).buf = buf := by
  cases d <;> rfl

/-- The preface at the front of the client's bytes. The result says whether frames follow. -/
def readPreface (p : Http2Parser) (d : FlowSide) : Http2Parser × Except Http2Error Bool :=
  if d = .initiator ∧ p.request.preface ≠ .seen then
    let buf := p.request.buf
    let n := min buf.length PREFACE.length
    if buf.take n = PREFACE.take n then
      if buf.length < PREFACE.length then (p, .ok false)
      else
        ({ p with request :=
          { p.request with buf := buf.drop PREFACE.length, preface := .seen } }, .ok true)
    else if p.request.preface = .required then (p, .error .badPreface)
    else
      -- a connection in progress: what is there are frames
      ({ p with request := { p.request with preface := .seen } }, .ok true)
  else (p, .ok true)

/-- How long a frame is by its header. -/
theorem total_of_peekFrameLen {buf : Bytes} {max total : ℕ}
    (h : peekFrameLen buf max = .ok (some total)) :
    total = FRAME_HEADER_LEN + beNat (buf.take 3) ∧ beNat (buf.take 3) ≤ max ∧
      total ≤ buf.length := by
  unfold peekFrameLen at h
  dsimp only at h
  split_ifs at h with hsh hbig hpt
  · simp at h
  · simp at h
  · obtain rfl : FRAME_HEADER_LEN + beNat (buf.take 3) = total := by simpa using h
    exact ⟨rfl, by omega, by omega⟩

/-- Take frames off the front of a direction's buffer, as long as there are whole ones. -/
def driveFrames (p : Http2Parser) (d : FlowSide) : Http2Parser × Except Http2Error Unit :=
  match _h : peekFrameLen (p.dir d).buf (p.dir d).max_frame_size with
  | .error e => (p, .error e)
  | .ok none => (p, .ok ())
  | .ok (some total) =>
    let raw := (p.dir d).buf.take total
    let q := p.setBuf d ((p.dir d).buf.drop total)
    match parseFrame raw (p.dir d).max_frame_size with
    | .error e => (q, .error e)
    | .ok none => (q, .ok ())
    | .ok (some (f, _)) =>
      match _hr : q.handleFrame d f with
      | (r, .error e) => (r, .error e)
      | (r, .ok ()) => driveFrames r d
termination_by (p.dir d).buf.length
decreasing_by
  obtain ⟨htotal, -, hle⟩ := total_of_peekFrameLen _h
  have hbuf := q.buf_handleFrame d d f
  rw [_hr] at hbuf
  rw [hbuf, buf_setBuf, List.length_drop]
  unfold FRAME_HEADER_LEN at htotal
  omega

/-- Skip the preface and read frames. -/
def driveInner (p : Http2Parser) (d : FlowSide) : Http2Parser × Except Http2Error Unit :=
  match p.readPreface d with
  | (p, .error e) => (p, .error e)
  | (p, .ok false) => (p, .ok ())
  | (p, .ok true) => p.driveFrames d

/-- Give up the connection. The first error is kept. -/
def fail (p : Http2Parser) (e : Http2Error) : Http2Parser :=
  { p with
    error := p.error.or (some e)
    request := { p.request with done := true, buf := [] }
    response := { p.response with done := true, buf := [] }
    streams := ∅ }

/-- Parse as much of a direction's buffer as possible. -/
def drive (p : Http2Parser) (d : FlowSide) : Http2Parser :=
  match p.driveInner d with
  | (p, .error e) => p.fail e
  | (p, .ok ()) => p

/-- Feed bytes to a direction. The result says how many were taken. -/
def push (p : Http2Parser) (d : FlowSide) (data : Bytes) : Http2Parser × ℕ :=
  if p.error.isSome ∨ (p.dir d).done then (p, 0)
  else
    let room := p.config.max_buffered_bytes - (p.dir d).buf.length
    if room = 0 then (p.fail .bufferOverflow, 0)
    else
      let take := min room data.length
      if 0 < take then ((p.setBuf d ((p.dir d).buf ++ data.take take)).drive d, take) else (p, take)

/-- Take the oldest event. -/
def nextEvent (p : Http2Parser) : Http2Parser × Option Http2Event :=
  ({ p with events := p.events.tail }, p.events.head?)

/-- End of stream on a direction. What is buffered can never be completed, and is dropped. -/
def fin (p : Http2Parser) (d : FlowSide) : Http2Parser :=
  p.modifyDir d fun s => { s with done := true, buf := [], partial_block := none }

/-- The connection was given up. -/
def isFailed (p : Http2Parser) : Bool := p.error.isSome

/-- The direction has ended. -/
def isFinished (p : Http2Parser) (d : FlowSide) : Bool := (p.dir d).done

/-- How much a direction holds. -/
def buffered (p : Http2Parser) (d : FlowSide) : ℕ := (p.dir d).buf.length

end Http2Parser

end Flowscope.Http2
