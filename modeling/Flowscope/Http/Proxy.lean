import Flowscope.Http.Rounds
import Flowscope.Flow.Basic

/-!
# HTTP/1: the parser for inline proxies

`HttpProxyParser` of `src/http/proxy.rs`. The caller pushes bytes for either side of a connection and
takes events, until there are none.
-/

namespace Flowscope.Http

structure RequestHead where
  method : Bytes
  path : Bytes
  version : HttpVersion
  headers : List Field
  framing : BodyFraming
  applied : List Normalization
  raw : Bytes
deriving DecidableEq, Repr

structure ResponseHead where
  status : ℕ
  reason : Bytes
  version : HttpVersion
  headers : List Field
  framing : BodyFraming
  interim : Bool
  applied : List Normalization
  raw : Bytes
deriving DecidableEq, Repr

/-- One step of progress on a connection. -/
inductive HttpEvent where
  | requestHead (h : RequestHead)
  | responseHead (h : ResponseHead)
  | body (dir : FlowSide) (data raw : Bytes)
  | trailers (dir : FlowSide) (trailers : List Field) (raw : Bytes)
  | end_ (dir : FlowSide)
  | switchProtocols (kind : SwitchKind)
deriving DecidableEq, Repr

structure HttpProxyConfig where
  max_head_bytes : ℕ := 64 * 1024
  max_headers : ℕ := 128
  max_chunk_line_bytes : ℕ := 256
  max_trailer_bytes : ℕ := 8 * 1024
  max_pipelined : ℕ := 64
  smuggling : SmugglingPolicy := .strict
  /-- How much one direction may hold. -/
  max_buffered_bytes : ℕ := 256 * 1024
deriving DecidableEq, Repr

def toDir : FlowSide → Dir
  | .initiator => .request
  | .responder => .response

def toSide : Dir → FlowSide
  | .request => .initiator
  | .response => .responder

def convert (dir : Dir) : EngineEvent → HttpEvent
  | .head h =>
    match dir with
    | .request => .requestHead
      { method := h.method, path := h.path, version := h.version, headers := h.headers,
        framing := h.framing, applied := h.applied, raw := h.raw }
    | .response => .responseHead
      { status := h.status, reason := h.reason, version := h.version, headers := h.headers,
        framing := h.framing, interim := h.interim, applied := h.applied, raw := h.raw }
  | .body decoded raw => .body (toSide dir) decoded raw
  | .trailers fields raw => .trailers (toSide dir) fields raw
  | .end_ => .end_ (toSide dir)
  | .switch kind => .switchProtocols kind

structure HttpProxyParser where
  engine : Engine
  config : HttpProxyConfig
deriving DecidableEq, Repr

namespace HttpProxyParser

def withConfig (config : HttpProxyConfig) : HttpProxyParser where
  engine := .new
    { max_head_bytes := config.max_head_bytes
      max_headers := config.max_headers
      max_chunk_line_bytes := config.max_chunk_line_bytes
      max_trailer_bytes := config.max_trailer_bytes
      max_pipelined := config.max_pipelined
      policy := config.smuggling }
  config := config

/-- The framing was lost on a direction. -/
def isPoisoned (p : HttpProxyParser) : Bool :=
  p.engine.isDesynced .request || p.engine.isDesynced .response

def poison (p : HttpProxyParser) : Option HttpPoison :=
  (p.engine.poison .request).or (p.engine.poison .response)

def isTunnelled (p : HttpProxyParser) : Bool := p.engine.isTunnelled

def buffered (p : HttpProxyParser) (side : FlowSide) : ℕ := p.engine.buffered (toDir side)

/-- Feed bytes for one direction. The number is how many were accepted. -/
def push (p : HttpProxyParser) (side : FlowSide) (data : Bytes) : HttpProxyParser × ℕ :=
  if p.isPoisoned ∨ p.engine.isTunnelled then (p, 0)
  else
    let room := p.config.max_buffered_bytes - p.engine.buffered (toDir side)
    let take := min room data.length
    if 0 < take then ({ p with engine := p.engine.push (toDir side) (data.take take) }, take)
    else (p, take)

/-- End of the stream of a direction. What the engine reports is not passed on. -/
def fin (p : HttpProxyParser) (side : FlowSide) : HttpProxyParser :=
  { p with engine := (p.engine.fin (toDir side)).1 }

/-- The next event, if there is one: of the requests first, then of the responses. -/
def nextEvent (hp : Httparse) (p : HttpProxyParser) : HttpProxyParser × Option HttpEvent :=
  match p.engine.poll hp .request with
  | (e, .ok (some ev)) => ({ p with engine := e }, some (convert .request ev))
  | (e, _) =>
    match e.poll hp .response with
    | (e, .ok (some ev)) => ({ p with engine := e }, some (convert .response ev))
    | (e, _) => ({ p with engine := e }, none)

/-- Take the bytes that were buffered when the connection switched. -/
def takeTunnelResidue (p : HttpProxyParser) (side : FlowSide) : HttpProxyParser × Bytes :=
  let (e, residue) := p.engine.takeResidue (toDir side)
  ({ p with engine := e }, residue)

theorem isDesynced_of_not_poisoned {p : HttpProxyParser} (h : p.isPoisoned = false) (dir : Dir) :
    p.engine.isDesynced dir = false := by
  have hbh := Bool.or_eq_false_iff.mp h
  cases dir with
  | request => exact hbh.1
  | response => exact hbh.2

/-- What `push` does: it refuses everything, or gives a part to the engine. -/
theorem push_cases (p : HttpProxyParser) (side : FlowSide) (data : Bytes) :
    p.push side data = (p, 0) ∨
      ∃ n, 0 < n ∧ n ≤ data.length ∧ p.isPoisoned = false ∧ p.isTunnelled = false ∧
        p.buffered side < p.config.max_buffered_bytes ∧
        p.push side data = ({ p with engine := p.engine.push (toDir side) (data.take n) }, n) := by
  unfold push
  by_cases hrf : p.isPoisoned ∨ p.engine.isTunnelled
  · exact .inl (if_pos hrf)
  · rw [if_neg hrf]
    rw [not_or, Bool.not_eq_true, Bool.not_eq_true] at hrf
    dsimp only
    generalize hn : min (p.config.max_buffered_bytes - p.engine.buffered (toDir side))
      data.length = n
    split_ifs with hpos
    · have hroom : p.engine.buffered (toDir side) < p.config.max_buffered_bytes := by omega
      exact .inr ⟨n, hpos, hn ▸ Nat.min_le_right _ _, hrf.1, hrf.2, hroom, rfl⟩
    · rw [Nat.eq_zero_of_not_pos hpos]
      exact .inl rfl

/-- What `next_event` does: a step of the requests, and one of the responses if that reports
nothing. -/
inductive Next (hp : Httparse) (p : HttpProxyParser) :
    HttpProxyParser → Option HttpEvent → Prop
  | request {e : Engine} {ev : EngineEvent} (h : p.engine.poll hp .request = (e, .ok (some ev))) :
      Next hp p { p with engine := e } (some (convert .request ev))
  | response {e₁ e : Engine} {r : Except HttpPoison (Option EngineEvent)} {ev : EngineEvent}
      (h₁ : p.engine.poll hp .request = (e₁, r)) (hr : ∀ ev, r ≠ .ok (some ev))
      (h : e₁.poll hp .response = (e, .ok (some ev))) :
      Next hp p { p with engine := e } (some (convert .response ev))
  | none {e₁ e : Engine} {r r' : Except HttpPoison (Option EngineEvent)}
      (h₁ : p.engine.poll hp .request = (e₁, r)) (hr : ∀ ev, r ≠ .ok (some ev))
      (h : e₁.poll hp .response = (e, r')) (hr' : ∀ ev, r' ≠ .ok (some ev)) :
      Next hp p { p with engine := e } none

theorem nextEvent_next (hp : Httparse) (p : HttpProxyParser) :
    p.Next hp (p.nextEvent hp).1 (p.nextEvent hp).2 := by
  unfold nextEvent
  split
  · next h => exact .request h
  · next e₁ r hr h₁ =>
    have hr' (ev : EngineEvent) : r ≠ .ok (some ev) := fun heq => hr ev (heq ▸ rfl)
    split
    · next h => exact .response h₁ hr' h
    · next e r' hq h =>
      exact .none h₁ hr' h fun ev heq => hq ev (heq ▸ rfl)

variable {hp : Httparse} {p p' : HttpProxyParser} {ev : Option HttpEvent}

/-- What every step keeps, `next_event` keeps. -/
theorem Next.engine_rule {I : Engine → Prop}
    (hpl : ∀ dir e e' r, Engine.Polled hp dir e e' r → I e → I e') (h : p.Next hp p' ev)
    (hI : I p.engine) : I p'.engine := by
  cases h with
  | request h => exact hpl _ _ _ _ (Engine.polled_of_poll h) hI
  | response h₁ _ h | none h₁ _ h _ =>
    exact hpl _ _ _ _ (Engine.polled_of_poll h) (hpl _ _ _ _ (Engine.polled_of_poll h₁) hI)

end HttpProxyParser

end Flowscope.Http
