import Flowscope.Flow.Basic
import Flowscope.Lib.Table
import Flowscope.Reassembly.Chunks

/-!
# Parser dispatch

The stream core of `src/session/core.rs`: it turns the reassembled output of a flow's two sides into
calls of the flow's parser, and what the parser says into messages and closes. A flow is *probed*
while a signature has not decided about it, then *active*, and *closed* from the time its parser is
done with it until the flow ends.

A parser is any state machine (`SessionParser`). Everything that a function of the core does, besides
changing its state, is in the list of notes that it returns: the calls of the parser, what it hands
to the consumer, and what it counts. Left out are the label of a parser (`ParserKind`), which goes
along with each output, and the transport protocol of a call's context, which only datagrams use.
-/

namespace Flowscope.Session

/-- What a parser wants done about missing bytes. -/
inductive GapResponse where
  | continue_
  /-- Stop reading this side. -/
  | stopSide
  /-- Close the parser. -/
  | stop
deriving DecidableEq, Repr

inductive ParserCall where
  | feed (side : FlowSide) (bytes : List UInt8) (ts : Timestamp)
  | gap (side : FlowSide) (missing : ℕ) (ts : Timestamp)
  | tick (now : Timestamp)
  | fin (side : FlowSide)
  | rst (side : FlowSide)
deriving DecidableEq, Repr

/-- A stream parser, with states `P` and messages `M`. -/
structure SessionParser (P M : Type) where
  feed_initiator : P → List UInt8 → Timestamp → P × List M
  feed_responder : P → List UInt8 → Timestamp → P × List M
  fin_initiator : P → P × List M
  fin_responder : P → P × List M
  rst_initiator : P → P
  rst_responder : P → P
  on_tick : P → Timestamp → P × List M
  on_gap : P → FlowSide → ℕ → Timestamp → P × GapResponse × List M
  is_poisoned : P → Bool
  poison_reason : P → Option String
  is_done : P → Bool

/-- The most bytes of a poison reason that are passed on. -/
def REASON_MAX_BYTES : ℕ := 256

/-- How many bytes of each side a signature reads. -/
def PROBE_BUFFER_CAP : ℕ := 64

/-- How many bytes are kept for a parser while a flow is probed. -/
def PROBE_REPLAY_BYTE_CAP : ℕ := 64 * 1024

/-- The characters at the front that fit into `room` bytes. -/
def fitting : ℕ → List Char → List Char
  | _, [] => []
  | room, c :: cs => if c.utf8Size ≤ room then c :: fitting (room - c.utf8Size) cs else []

/-- A reason, cut at a character boundary if it is too long. -/
def truncateReason (s : String) : String :=
  if REASON_MAX_BYTES < s.utf8ByteSize then String.ofList (fitting REASON_MAX_BYTES s.toList) else s

/-- The ports of a packet, if it has them. -/
abbrev Ports : Type := Option (UInt16 × UInt16)

/-- Reassembled output: drained from a reassembler, or let through from the packet. -/
inductive Stream where
  | chunks (c : StreamChunks)
  | bytes (b : List UInt8)

namespace Stream

def isEmpty : Stream → Bool
  | chunks c => c.isEmpty
  | bytes b => b.isEmpty

/-- The number of data bytes. -/
def len : Stream → ℕ
  | chunks c => c.len
  | bytes b => b.length

def stop : Stream → Option ReassemblyStop
  | chunks c => c.stop
  | bytes _ => none

/-- Data and gaps in stream order. -/
def iter : Stream → List Chunk
  | chunks c => c.iter
  | bytes b => if b.isEmpty then [] else [.data b]

/-- A copy, for a later replay. -/
def toChunks : Stream → StreamChunks
  | chunks c => c
  | bytes b => StreamChunks.new.pushData b

end Stream

/-- What a signature makes of the first bytes of a side. -/
inductive SignatureMatch where
  | match_
  | noMatch
  | needMoreData
deriving DecidableEq, Repr

/-- Which flows a core wants. -/
inductive Selector where
  | all
  /-- Flows with either port in the list. -/
  | ports (set : List UInt16)
  /-- Flows whose first bytes match. -/
  | signature (signature : List UInt8 → SignatureMatch) (max_probe_packets : ℕ)

/-- A packet with these ports can belong to a wanted flow. -/
def Selector.admits : Selector → Ports → Bool
  | .ports set, some (s, d) => set.contains s || set.contains d
  | .ports _, none => false
  | _, _ => true

/-- Which parser events reach the consumer. -/
structure Emit where
  count_anomalies : Bool
  anomalies : Bool
  parser_events : Bool
  flow_end_closes : Bool

/-- What a call of the core is about. -/
structure Ctx (K : Type) where
  key : K
  side : FlowSide
  orientation : Orientation
  ts : Timestamp
  emit : Emit

/-- What a core does. -/
inductive Note (K M : Type) where
  /-- It calls the parser of a flow. -/
  | call (key : K) (c : ParserCall)
  /-- It hands a message to the consumer. -/
  | message (key : K) (side : FlowSide) (orientation : Orientation) (message : M) (ts : Timestamp)
  /-- It tells the consumer that a parser was closed. -/
  | parserClosed (key : K) (reason : EndReason) (detail : Option String) (ts : Timestamp)
      (at_flow_end : Bool)
  /-- It tells the consumer that a parser stopped reading a side. -/
  | parserSideStopped (key : K) (side : FlowSide) (reason : EndReason) (detail : Option String)
      (ts : Timestamp)
  /-- It reports that a parser could not read its stream. -/
  | sessionParseError (key : K) (side : FlowSide) (reason : Option String) (ts : Timestamp)
  /-- It counts a close. -/
  | recordParserClosed (key : K) (reason : EndReason)
  /-- It counts a stopped side. -/
  | recordParserSideStopped (key : K) (side : FlowSide) (reason : EndReason)
  /-- It counts a parse error. -/
  | recordAnomaly (key : K) (side : FlowSide) (reason : Option String)

/-- Why a parser is closed before its flow ends. -/
inductive Close where
  | poison (reason : Option String)
  | done
  | gap (side : FlowSide) (missing : ℕ)
  /-- Both sides stopped; the reason of the last stop. -/
  | bothSides (reason : EndReason)

def Close.reason : Close → EndReason
  | .poison _ => .parseError
  | .done => .parserDone
  | .gap _ _ => .streamGap
  | .bothSides reason => reason

def Close.detail : Close → Option String
  | .poison r => r
  | .done => none
  | .gap side n => some s!"{n} bytes missing on the {side} side"
  | .bothSides _ => some "both sides stopped"

inductive FeedEnd where
  | close (c : Close)
  | stopSide (reason : EndReason) (detail : String)

instance : ToString ReassemblyStop where
  toString
    | .overflow => "overflow"
    | .memcap => "memcap"

variable {K P M F : Type}

/-- The parser's own wish to be closed. -/
def checkClose (S : SessionParser P M) (p : P) : Option Close :=
  if S.is_poisoned p then some (.poison ((S.poison_reason p).map truncateReason))
  else if S.is_done p then some .done
  else none

def emitClose (cx : Ctx K) (close : Close) : List (Note K M) :=
  .recordParserClosed cx.key close.reason ::
    ((match close with
      | .poison detail =>
        if cx.emit.count_anomalies then
          .recordAnomaly cx.key cx.side detail ::
            if cx.emit.anomalies then [.sessionParseError cx.key cx.side detail cx.ts] else []
        else []
      | _ => []) ++
    if cx.emit.parser_events then
      [.parserClosed cx.key close.reason close.detail cx.ts false]
    else [])

def emitSideStopped (cx : Ctx K) (reason : EndReason) (detail : String) : List (Note K M) :=
  .recordParserSideStopped cx.key cx.side reason ::
    if cx.emit.parser_events then
      [.parserSideStopped cx.key cx.side reason (some detail) cx.ts]
    else []

/-- The messages of one call. -/
def messages (cx : Ctx K) (ms : List M) : List (Note K M) :=
  ms.map fun m => .message cx.key cx.side cx.orientation m cx.ts

/-- Hand one chunk to the parser. For a gap, its length and the parser's answer. -/
def feedChunk (S : SessionParser P M) (cx : Ctx K) (p : P) :
    Chunk → P × Option (ℕ × GapResponse) × List (Note K M)
  | .data bytes =>
    let (p, ms) :=
      match cx.side with
      | .initiator => S.feed_initiator p bytes cx.ts
      | .responder => S.feed_responder p bytes cx.ts
    (p, none, .call cx.key (.feed cx.side bytes cx.ts) :: messages cx ms)
  | .gap missing =>
    let (p, response, ms) := S.on_gap p cx.side missing cx.ts
    (p, some (missing, response), .call cx.key (.gap cx.side missing cx.ts) :: messages cx ms)

/-- Hand chunks to the parser until it closes or stops the side. -/
def feedChunks (S : SessionParser P M) (cx : Ctx K) (p : P) :
    List Chunk → P × Option FeedEnd × List (Note K M)
  | [] => (p, none, [])
  | chunk :: rest =>
    let (p, gap, notes) := feedChunk S cx p chunk
    match checkClose S p, gap with
    | some close, _ => (p, some (.close close), notes)
    | none, some (missing, .stop) => (p, some (.close (.gap cx.side missing)), notes)
    | none, some (missing, .stopSide) =>
      (p, some (.stopSide .streamGap s!"{missing} bytes missing"), notes)
    | none, _ =>
      let (p, end_, notes') := feedChunks S cx p rest
      (p, end_, notes ++ notes')

/-- Feed one side's output to the parser, its stop included. -/
def feed (S : SessionParser P M) (cx : Ctx K) (p : P) (stream : Stream) :
    P × Option FeedEnd × List (Note K M) :=
  match feedChunks S cx p stream.iter with
  | (p, some end_, notes) => (p, some end_, notes)
  | (p, none, notes) =>
    (p, stream.stop.map fun stop => .stopSide .bufferOverflow s!"reassembly stopped: {stop}", notes)

/-- A parser, and the sides that it reads no more. -/
structure Active (P : Type) where
  parser : P
  stopped : Sides Bool

namespace Active

def new (parser : P) : Active P := ⟨parser, .both false⟩

/-- Feed one side. The second component tells whether the parser is closed. -/
def feed (S : SessionParser P M) (cx : Ctx K) (stream : Stream) (a : Active P) :
    Active P × Bool × List (Note K M) :=
  if a.stopped.get cx.side then (a, false, [])
  else
    match Session.feed S cx a.parser stream with
    | (p, none, notes) => ({ a with parser := p }, false, notes)
    | (p, some (.close close), notes) =>
      ({ a with parser := p }, true, notes ++ emitClose cx close)
    | (p, some (.stopSide reason detail), notes) =>
      let stopped := a.stopped.set cx.side true
      let notes := notes ++ emitSideStopped cx reason detail
      if stopped = .both true then
        (⟨p, stopped⟩, true, notes ++ emitClose cx (.bothSides reason))
      else (⟨p, stopped⟩, false, notes)

end Active

/-! ## Probing -/

/-- The state of a flow that a signature has not decided about. -/
structure Probe where
  packets : ℕ
  /-- The first bytes of each side. -/
  prefixes : Sides (List UInt8)
  /-- A gap or a stop has ended the first bytes. -/
  sealed : Sides Bool
  /-- The output so far, in order of arrival, for the parser. -/
  replay : List (FlowSide × Orientation × Timestamp × StreamChunks)
  replay_bytes : ℕ
  /-- Some output of the side is in `replay`. -/
  kept : Sides Bool
  /-- The bytes of each side, data and gaps, that were not kept. -/
  lost : Sides ℕ

/-- What a signature has decided. -/
inductive Verdict where
  | match_
  | reject
  | undecided
deriving DecidableEq, Repr

namespace Probe

def new : Probe := ⟨0, .both [], .both false, [], 0, .both false, .both 0⟩

/-- Add the data before the first gap to the first bytes of a side. The second component tells
whether there was a gap. -/
def extendPrefix (first : List UInt8) : List Chunk → List UInt8 × Bool
  | [] => (first, false)
  | .data d :: rest => extendPrefix (first ++ d.take (PROBE_BUFFER_CAP - first.length)) rest
  | .gap _ :: _ => (first, true)

/-- Extend the first bytes of the side that has sent `stream`. -/
def readPrefix (p : Probe) (side : FlowSide) (stream : Stream) : Probe :=
  if p.sealed.get side then p
  else
    let (first, gap) := extendPrefix (p.prefixes.get side) stream.iter
    { p with
      prefixes := p.prefixes.set side first
      sealed := p.sealed.set side (gap || stream.stop.isSome) }

/-- The output is kept for replay: the first of a side always, and others while there is room and
nothing of the side has been lost. -/
def Keeps (p : Probe) (side : FlowSide) (stream : Stream) : Prop :=
  p.kept.get side = false ∨
    p.lost.get side = 0 ∧ p.replay_bytes + stream.len ≤ PROBE_REPLAY_BYTE_CAP

instance (p : Probe) (side : FlowSide) (stream : Stream) : Decidable (p.Keeps side stream) :=
  inferInstanceAs (Decidable (_ ∨ _))

/-- The bytes of an output, data and gaps. -/
def spanned (stream : Stream) : ℕ :=
  stream.len + (stream.iter.map fun
    | .gap n => n
    | .data _ => 0).sum

/-- Keep an output for replay, or count its bytes as lost. -/
def record (p : Probe) (cx : Ctx K) (stream : Stream) : Probe :=
  if p.Keeps cx.side stream then
    { p with
      kept := p.kept.set cx.side true
      replay_bytes := p.replay_bytes + stream.len
      replay := p.replay ++ [(cx.side, cx.orientation, cx.ts, stream.toChunks)] }
  else { p with lost := p.lost.set cx.side (p.lost.get cx.side + spanned stream) }

/-- Evaluate the signature. -/
def verdict (p : Probe) (signature : List UInt8 → SignatureMatch) (max_probe_packets : ℕ) :
    Verdict :=
  let v₀ := signature p.prefixes.initiator
  let v₁ := signature p.prefixes.responder
  if v₀ = .match_ ∨ v₁ = .match_ then .match_
  else if (v₀ = .noMatch ∧ v₁ = .noMatch) ∨ max_probe_packets ≤ p.packets then .reject
  else .undecided

/-- Record one side's output and evaluate the signature. -/
def step (p : Probe) (cx : Ctx K) (stream : Stream) (signature : List UInt8 → SignatureMatch)
    (max_probe_packets : ℕ) : Probe × Verdict :=
  let p := p.readPrefix cx.side stream
  let p := { p with packets := min (p.packets + 1) 255 }
  let p := p.record cx stream
  (p, p.verdict signature max_probe_packets)

end Probe

/-- Feed outputs one after another until the parser closes. -/
def feedAll (S : SessionParser P M) (a : Active P) :
    List (Ctx K × Stream) → Option (Active P) × List (Note K M)
  | [] => (some a, [])
  | (cx, stream) :: rest =>
    match a.feed S cx stream with
    | (_, true, notes) => (none, notes)
    | (a, false, notes) =>
      let (a, notes') := feedAll S a rest
      (a, notes ++ notes')

/-- An output that was kept, as it is fed later on. -/
def replayOf (cx : Ctx K) (entry : FlowSide × Orientation × Timestamp × StreamChunks) :
    Ctx K × Stream :=
  let (side, orientation, ts, chunks) := entry
  ({ cx with side := side, orientation := orientation, ts := ts }, .chunks chunks)

/-- The gaps that stand for what was not kept. -/
def lostGaps (cx : Ctx K) (lost : Sides ℕ) : List (Ctx K × Stream) :=
  [FlowSide.initiator, FlowSide.responder].filterMap fun side =>
    if lost.get side = 0 then none
    else
      let orientation := if side = cx.side then cx.orientation else cx.orientation.flipped
      some ({ cx with side := side, orientation := orientation },
        .chunks (StreamChunks.new.pushGap (lost.get side)))

/-- A probed flow matched: feed the parser what was seen so far. `none` if that closes it. -/
def pin (S : SessionParser P M) (parser : P) (probe : Probe) (cx : Ctx K) :
    Option (Active P) × List (Note K M) :=
  feedAll S (.new parser) (probe.replay.map (replayOf cx) ++ lostGaps cx probe.lost)

/-! ## The core -/

/-- The state of a flow's parser. -/
inductive SessionFlow (P : Type) where
  | probing (probe : Probe)
  | active (a : Active P)
  /-- Closed early, or rejected by the signature. -/
  | closed

/-- The parsers of one kind, by flow. `F` is the state of the factory that makes them. -/
structure SessionCore (K F P : Type) where
  factory : F
  selector : Selector
  flows : Table K (SessionFlow P)

namespace SessionCore

variable [DecidableEq K]

/-- Hand new output of a side to a flow in the given state. -/
def advance (S : SessionParser P M) (newParser : F → K → F × P) (core : SessionCore K F P)
    (cx : Ctx K) (stream : Stream) (state : SessionFlow P) :
    SessionCore K F P × List (Note K M) :=
  match state with
  | .closed => ({ core with flows := core.flows.insert cx.key .closed }, [])
  | .active a =>
    let (a, closed, notes) := a.feed S cx stream
    let state := if closed then .closed else .active a
    ({ core with flows := core.flows.insert cx.key state }, notes)
  | .probing probe =>
    match core.selector with
    | .signature signature max_probe_packets =>
      match probe.step cx stream signature max_probe_packets with
      | (probe, .undecided) =>
        ({ core with flows := core.flows.insert cx.key (.probing probe) }, [])
      | (_, .reject) => ({ core with flows := core.flows.insert cx.key .closed }, [])
      | (probe, .match_) =>
        let (factory, parser) := newParser core.factory cx.key
        let (pinned, notes) := pin S parser probe cx
        let state := pinned.elim .closed .active
        ({ core with factory := factory, flows := core.flows.insert cx.key state }, notes)
    -- only a core with a signature probes
    | _ => (core, [])

/-- New output of one side of a flow. A flow without a state is picked up if its ports are wanted. -/
def onStream (S : SessionParser P M) (newParser : F → K → F × P) (core : SessionCore K F P)
    (cx : Ctx K) (ports : Ports) (stream : Stream) : SessionCore K F P × List (Note K M) :=
  if stream.isEmpty then (core, [])
  else
    match core.flows.lookup cx.key with
    | some state => core.advance S newParser cx stream state
    | none =>
      if ¬core.selector.admits ports then (core, [])
      else
        match core.selector with
        | .signature _ _ => core.advance S newParser cx stream (.probing .new)
        | _ =>
          let (factory, parser) := newParser core.factory cx.key
          advance S newParser { core with factory := factory } cx stream (.active (.new parser))

/-- Outputs of one flow, one after another. -/
def onStreams (S : SessionParser P M) (newParser : F → K → F × P) (core : SessionCore K F P)
    (ports : Ports) : List (Ctx K × Stream) → SessionCore K F P × List (Note K M)
  | [] => (core, [])
  | (cx, stream) :: rest =>
    let (core, notes) := core.onStream S newParser cx ports stream
    let (core, notes') := core.onStreams S newParser ports rest
    (core, notes ++ notes')

end SessionCore

end Flowscope.Session
