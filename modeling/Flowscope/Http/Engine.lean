import Flowscope.Http.Scan

/-!
# HTTP/1: the engine

The state machine of `src/http/engine.rs`. It has a buffer and a state for each direction, and a queue
of the requests that wait for their response, since how a response is framed depends on its request.

`Engine.pollRound` is one round of the loop in `Engine::poll`. A round may only change the state
(`Progress.again`); the loop is in `Http/Rounds.lean`.
-/

namespace Flowscope.Http

/-- Where a direction is within a chunked body. -/
inductive ChunkState where
  /-- Before a chunk-size line. -/
  | size
  /-- Within the data of a chunk. -/
  | data (remaining : ℕ)
  /-- Before the CRLF after the data of a chunk. -/
  | dataCrlf
  /-- Before the line of the last chunk, which is kept for the trailer section. -/
  | trailer
deriving DecidableEq, Repr

inductive BodyState where
  | length (remaining : ℕ)
  | chunked (cs : ChunkState)
  | untilClose
deriving DecidableEq, Repr

/-- The state of a direction. -/
inductive DirState where
  | head
  | body (b : BodyState)
  | tunnel
  | closed
  | desynced
  /-- Bytes are missing: the next head is looked for. -/
  | resync
deriving DecidableEq, Repr

/-- What is remembered of a request until its response. -/
structure ReqCtx where
  is_head : Bool
  is_connect : Bool
deriving DecidableEq, Repr

/-- One direction. -/
structure DirMachine where
  buf : Bytes
  state : DirState
  poison : Option HttpPoison
  /-- The connection closes after the message in progress. -/
  close_after_message : Bool
  /-- How far the buffer has been scanned. -/
  scanned : ℕ
deriving DecidableEq, Repr

namespace DirMachine

def new : DirMachine := ⟨[], .head, none, false, 0⟩

/-- Consume the first `n` bytes. -/
def take (m : DirMachine) (n : ℕ) : DirMachine :=
  { m with buf := m.buf.drop n, scanned := m.scanned - n }

/-- Give the direction up. -/
def desync (m : DirMachine) (reason : HttpPoison) : DirMachine :=
  { m with state := .desynced, poison := some reason, buf := [], scanned := 0 }

end DirMachine

/-- What a step reports. -/
inductive EngineEvent where
  | head (h : Head)
  /-- Payload, and every byte that the step consumed. -/
  | body (decoded raw : Bytes)
  | trailers (fields : List Field) (raw : Bytes)
  | end_
  | switch (kind : SwitchKind)
deriving DecidableEq, Repr

/-- The outcome of one round of the loop in `Engine::poll`. -/
inductive Progress where
  | event (ev : EngineEvent)
  | needMore
  | again
deriving DecidableEq, Repr

structure Engine where
  limits : EngineLimits
  request : DirMachine
  response : DirMachine
  /-- The requests that wait for a response, the oldest first. -/
  pending : List ReqCtx
  /-- The switch to report once the response head that announced it is framed. -/
  pending_switch : Option SwitchKind
deriving DecidableEq, Repr

/-- How a buffer compares with the HTTP/2 preface. -/
inductive PrefaceMatch where
  | yes
  /-- It is a beginning of the preface. -/
  | beginning
  | no
deriving DecidableEq, Repr

def H2_PREFACE : Bytes := ascii "PRI * HTTP/2.0\r\n\r\nSM\r\n\r\n"

def prefaceMatch (buf : Bytes) : PrefaceMatch :=
  let n := min buf.length H2_PREFACE.length
  if buf.take n ≠ H2_PREFACE.take n then .no
  else if H2_PREFACE.length ≤ buf.length then .yes
  else .beginning

/-- The state in which a message with this framing starts. -/
def bodyState : BodyFraming → DirState
  | .none => .body (.length 0)
  | .contentLength n => .body (.length n)
  | .chunked => .body (.chunked .size)
  | .untilClose => .body .untilClose

def looksLikeHead (dir : Dir) (line : Bytes) : Bool :=
  match dir with
  | .request =>
    (["GET ", "POST ", "PUT ", "DELETE ", "HEAD ", "OPTIONS ", "PATCH ", "CONNECT ", "TRACE "].map
      ascii).any (·.isPrefixOf line)
  | .response => (ascii "HTTP/1.").isPrefixOf line

def chunkSize (line : Bytes) : Option ℕ := parseHex (trimAscii (line.takeWhile (· ≠ 59)))

namespace Engine

def new (limits : EngineLimits) : Engine := ⟨limits, .new, .new, [], none⟩

def dir (e : Engine) : Dir → DirMachine
  | .request => e.request
  | .response => e.response

def setDir (e : Engine) (dir : Dir) (m : DirMachine) : Engine :=
  match dir with
  | .request => { e with request := m }
  | .response => { e with response := m }

variable (e : Engine) (dir : Dir) (m : DirMachine)

@[simp]
theorem dir_setDir : (e.setDir dir m).dir dir = m := by
  cases dir <;> rfl

theorem dir_setDir_of_ne {dir dir' : Dir} (h : dir' ≠ dir) (m : DirMachine) :
    (e.setDir dir m).dir dir' = e.dir dir' := by
  cases dir <;> cases dir' <;> first | rfl | exact absurd rfl h

@[simp]
theorem setDir_setDir (m m' : DirMachine) : (e.setDir dir m).setDir dir m' = e.setDir dir m' := by
  cases dir <;> rfl

@[simp]
theorem setDir_dir : e.setDir dir (e.dir dir) = e := by cases dir <;> rfl

@[simp]
theorem limits_setDir : (e.setDir dir m).limits = e.limits := by
  cases dir <;> rfl

@[simp]
theorem pending_setDir : (e.setDir dir m).pending = e.pending := by
  cases dir <;> rfl

@[simp]
theorem pending_switch_setDir : (e.setDir dir m).pending_switch = e.pending_switch := by
  cases dir <;> rfl

/-- Whether a direction will still parse what it is given. -/
def canConsume (e : Engine) (dir : Dir) : Bool :=
  match (e.dir dir).state with
  | .head | .body _ | .resync => true
  | _ => false

/-- Append to a direction's buffer. What can no longer be parsed is dropped. -/
def push (e : Engine) (dir : Dir) (bytes : Bytes) : Engine :=
  if bytes = [] ∨ ¬e.canConsume dir then e
  else e.setDir dir { e.dir dir with buf := (e.dir dir).buf ++ bytes }

/-- Bytes are missing: drop the message in progress. -/
def resync (e : Engine) (dir : Dir) : Engine :=
  match (e.dir dir).state with
  | .tunnel | .closed => e
  | _ => e.setDir dir
    { buf := [], scanned := 0, poison := none, close_after_message := false, state := .resync }

/-- Look for the next head, and restart there. -/
def findHead (e : Engine) (dir : Dir) : Engine × Bool :=
  let m := e.dir dir
  let found := (List.range (m.buf.length + 1)).find? fun i =>
    (i = 0 ∨ m.buf[i - 1]? = some LF) ∧ looksLikeHead dir (m.buf.drop i)
  match found with
  | some i => (e.setDir dir { m with buf := m.buf.drop i, scanned := 0, state := .head }, true)
  | none =>
    -- the last line may be the beginning of a head
    let keep := m.buf.length - (m.buf.reverse.takeWhile (· ≠ LF)).length
    let rest := m.buf.drop keep
    (e.setDir dir { m with buf := if 64 < rest.length then [] else rest }, false)

def isDesynced (e : Engine) (dir : Dir) : Bool := (e.dir dir).state = .desynced

def isClosed (e : Engine) (dir : Dir) : Bool := (e.dir dir).state = .closed

def isTunnelled (e : Engine) : Bool := e.request.state = .tunnel

def poison (e : Engine) (dir : Dir) : Option HttpPoison := (e.dir dir).poison

def buffered (e : Engine) (dir : Dir) : ℕ := (e.dir dir).buf.length

def reset (e : Engine) (dir : Dir) : Engine :=
  match dir with
  | .request => { e with request := .new, pending := [] }
  | .response => { e with response := .new }

/-- End of the stream of a direction. A body that runs to the close ends here. -/
def fin (e : Engine) (dir : Dir) : Engine × Option EngineEvent :=
  let m := e.dir dir
  match m.state with
  | .body .untilClose =>
    (e.setDir dir { m.take m.buf.length with state := .closed }, some (.body m.buf m.buf))
  | .desynced | .tunnel => (e, none)
  | _ => (e.setDir dir { m with state := .closed }, none)

/-- Lose the framing of a direction. -/
def desync {α : Type} (e : Engine) (dir : Dir) (reason : HttpPoison) :
    Engine × Except HttpPoison α :=
  (e.setDir dir ((e.dir dir).desync reason), .error reason)

/-- Put both directions into the tunnel state. What they have buffered stays. -/
def switchToTunnel (e : Engine) : Engine :=
  { e with
    request := { e.request with state := .tunnel }
    response := { e.response with state := .tunnel }
    pending := [] }

/-- Take what a direction had buffered when the connection switched. -/
def takeResidue (e : Engine) (dir : Dir) : Engine × Bytes :=
  if ¬e.isTunnelled then (e, [])
  else (e.setDir dir ((e.dir dir).take (e.dir dir).buf.length), (e.dir dir).buf)

/-! ## Heads -/

/-- Frame a request head, and remember it for its response. -/
def finishRequestHead (e : Engine) (head : Head) (wants_close : Bool) :
    Engine × Except HttpPoison (Option EngineEvent) :=
  match (if e.limits.policy ≠ .observe then checkSingleHost head.headers else .ok ()) with
  | .error reason => e.desync .request reason
  | .ok () =>
    match requestFraming head.headers e.limits.policy with
    | .error reason => e.desync .request reason
    | .ok (framing, applied) =>
      if e.limits.max_pipelined ≤ e.pending.length then e.desync .request .pipelineOverflow
      else
        ({ e with
            pending := e.pending ++
              [⟨eqIgnoreAsciiCase head.method (ascii "HEAD"),
                eqIgnoreAsciiCase head.method (ascii "CONNECT")⟩]
            request :=
              { e.request with close_after_message := wants_close, state := bodyState framing } },
          .ok (some (.head { head with framing, applied })))

/-- Frame a response head. An interim response leaves its request waiting. -/
def finishResponseHead (e : Engine) (head : Head) (wants_close : Bool) :
    Engine × Except HttpPoison (Option EngineEvent) :=
  if head.status = 101 then
    let protocol := (headerValue head.headers (ascii "upgrade")).getD []
    ({ e with
        pending := e.pending.tail
        pending_switch := some (.upgrade protocol)
        response := { e.response with state := .body (.length 0) } },
      .ok (some (.head { head with framing := .none, interim := false })))
  else if 100 ≤ head.status ∧ head.status ≤ 199 then
    ({ e with response := { e.response with state := .head } },
      .ok (some (.head { head with framing := .none, interim := true })))
  else
    let ctx := e.pending.head?
    let e := { e with pending := e.pending.tail }
    if ctx = none ∧ e.limits.policy ≠ .observe then e.desync .response .unexpectedResponse
    else if ctx.any (·.is_connect) ∧ 200 ≤ head.status ∧ head.status ≤ 299 then
      ({ e with
          pending_switch := some .connectTunnel
          response := { e.response with state := .body (.length 0) } },
        .ok (some (.head { head with framing := .none, interim := false })))
    else
      match responseFraming head.status (ctx.any (·.is_head)) head.headers e.limits.policy with
      | .error reason => e.desync .response reason
      | .ok (framing, applied) =>
        ({ e with
            response :=
              { e.response with close_after_message := wants_close, state := bodyState framing } },
          .ok (some (.head { head with framing, interim := false, applied })))

def finishHead (e : Engine) (dir : Dir) (head : Head) :
    Engine × Except HttpPoison (Option EngineEvent) :=
  match dir with
  | .request => e.finishRequestHead head (signalsClose head)
  | .response => e.finishResponseHead head (signalsClose head)

section Httparse

variable (hp : Httparse)

/-- Read the head in the first `hlen` bytes. -/
def readHead (e : Engine) (dir : Dir) (hlen : ℕ) :
    Engine × Except HttpPoison (Option EngineEvent) :=
  let region := (e.dir dir).buf.take hlen
  match (if e.limits.policy ≠ .observe then checkHeadBytes true region else .ok ()) with
  | .error reason => e.desync dir reason
  | .ok () =>
    match parseHead hp dir region e.limits.max_headers with
    | none => e.desync dir .malformedHead
    | some head => (e.setDir dir ((e.dir dir).take hlen)).finishHead dir head

/-- Look for a head. A client that begins with the HTTP/2 preface sends no head. -/
def pollHead (e : Engine) (dir : Dir) : Engine × Except HttpPoison (Option EngineEvent) :=
  let m := e.dir dir
  match (if dir = .request then prefaceMatch m.buf else .no) with
  | .yes => (e.switchToTunnel, .ok (some (.switch .http2PriorKnowledge)))
  | .beginning => (e, .ok none)
  | .no =>
    match scanBlankLine m.buf m.scanned with
    | (none, scanned) =>
      let e := e.setDir dir { m with scanned }
      if e.limits.max_head_bytes < m.buf.length then e.desync dir .headOverflow
      else (e, .ok none)
    | (some hlen, scanned) =>
      let e := e.setDir dir { m with scanned }
      if e.limits.max_head_bytes < hlen then e.desync dir .headOverflow
      else e.readHead hp dir hlen

end Httparse

/-! ## Bodies -/

/-- Report the next `n` bytes as payload. -/
def bodySpan (e : Engine) (dir : Dir) (n : ℕ) (next : DirState) :
    Engine × Except HttpPoison Progress :=
  let m := e.dir dir
  if n = 0 then (e, .ok .needMore)
  else
    let raw := m.buf.take n
    (e.setDir dir { m.take n with state := next }, .ok (.event (.body raw raw)))

/-- Report the next `n` bytes as framing. -/
def framingSpan (e : Engine) (dir : Dir) (n : ℕ) (next : DirState) :
    Engine × Except HttpPoison Progress :=
  let m := e.dir dir
  (e.setDir dir { m.take n with state := next }, .ok (.event (.body [] (m.buf.take n))))

def pollChunked (e : Engine) (dir : Dir) (cs : ChunkState) : Engine × Except HttpPoison Progress :=
  let m := e.dir dir
  match cs with
  | .size =>
    match scanCrlf m.buf m.scanned with
    | (none, scanned) =>
      let e := e.setDir dir { m with scanned }
      if e.limits.max_chunk_line_bytes < m.buf.length then e.desync dir .chunkLineOverflow
      else (e, .ok .needMore)
    | (some eol, scanned) =>
      let e := e.setDir dir { m with scanned }
      if e.limits.max_chunk_line_bytes < eol then e.desync dir .chunkLineOverflow
      else
        match chunkSize (m.buf.take eol) with
        | none => e.desync dir .invalidChunkSize
        | some 0 =>
          (e.setDir dir { e.dir dir with state := .body (.chunked .trailer) }, .ok .again)
        | some size => e.framingSpan dir (eol + 2) (.body (.chunked (.data size)))
  | .data remaining =>
    let take := min remaining m.buf.length
    e.bodySpan dir take
      (.body (.chunked (if remaining - take = 0 then .dataCrlf else .data (remaining - take))))
  | .dataCrlf =>
    if m.buf.length < 2 then (e, .ok .needMore)
    else if m.buf.take 2 ≠ [CR, LF] then e.desync dir .malformedChunkTerminator
    else e.framingSpan dir 2 (.body (.chunked .size))
  | .trailer =>
    match scanTrailerEnd m.buf with
    | (none, scanned) =>
      let e := e.setDir dir { m with scanned }
      if e.limits.max_trailer_bytes < m.buf.length then e.desync dir .trailerOverflow
      else (e, .ok .needMore)
    | (some end_, scanned) =>
      let e := e.setDir dir { m with scanned }
      if e.limits.max_trailer_bytes < end_ then e.desync dir .trailerOverflow
      else
        let raw := m.buf.take end_
        (e.setDir dir { (e.dir dir).take end_ with state := .body (.length 0) },
          .ok (.event (.trailers (parseTrailerFields raw) raw)))

def pollBody (e : Engine) (dir : Dir) (body : BodyState) : Engine × Except HttpPoison Progress :=
  let m := e.dir dir
  match body with
  | .length 0 =>
    match e.pending_switch with
    | some kind =>
      ({ e with pending_switch := none }.switchToTunnel, .ok (.event (.switch kind)))
    | none =>
      (e.setDir dir { m with state := if m.close_after_message then .closed else .head },
        .ok (.event .end_))
  | .length remaining =>
    let take := min remaining m.buf.length
    e.bodySpan dir take (.body (.length (remaining - take)))
  | .untilClose => e.bodySpan dir m.buf.length (.body .untilClose)
  | .chunked cs => e.pollChunked dir cs

/-! ## Steps -/

section Httparse

variable (hp : Httparse)

def pollRound (e : Engine) (dir : Dir) : Engine × Except HttpPoison Progress :=
  match (e.dir dir).state with
  | .desynced | .closed | .tunnel => (e, .ok .needMore)
  | .resync =>
    match e.findHead dir with
    | (e, true) => (e, .ok .again)
    | (e, false) => (e, .ok .needMore)
  | .head =>
    match e.pollHead hp dir with
    | (e, .ok (some ev)) => (e, .ok (.event ev))
    | (e, .ok none) => (e, .ok .needMore)
    | (e, .error reason) => (e, .error reason)
  | .body body => e.pollBody dir body

end Httparse

end Engine

end Flowscope.Http
