import Flowscope.Lib.Bytes

/-!
# HTTP/1: heads and how a body is delimited

The types of `src/http/types.rs` and `src/http/poison.rs`, and the functions of `src/http/engine.rs`
that look at a complete head: which bytes it may have, what its fields are, and how the body after it
is delimited.

The start line and the fields are read by the crate `httparse`, which is not part of the program. It
is a parameter here (`Httparse`).
-/

namespace Flowscope.Http

/-- A header field: its name and its value. -/
abbrev Field : Type := Bytes × Bytes

/-- Which way a message goes. -/
inductive Dir where
  /-- From the client to the server. -/
  | request
  /-- From the server to the client. -/
  | response
deriving DecidableEq, Repr

/-- Why a connection is given up. -/
inductive HttpPoison where
  | headOverflow
  | chunkLineOverflow
  | trailerOverflow
  | pipelineOverflow
  | invalidChunkSize
  | malformedChunkTerminator
  | malformedHead
  | contentLengthWithTransferEncoding
  | conflictingContentLength
  | invalidContentLength
  | nonFinalChunked
  | unknownTransferCoding
  | duplicateTransferEncoding
  | obsFold
  | bareCr
  | duplicateHost
  | nonAsciiAuthority
  | unexpectedResponse
deriving DecidableEq, Repr

/-- What to do about a message whose framing is ambiguous. -/
inductive SmugglingPolicy where
  | strict
  | normalize
  | observe
deriving DecidableEq, Repr

/-- What was done to resolve an ambiguity. -/
inductive Normalization where
  | strippedContentLength
  | collapsedContentLength
deriving DecidableEq, Repr

/-- How a body is delimited. -/
inductive BodyFraming where
  | none
  | contentLength (n : ℕ)
  | chunked
  | untilClose
deriving DecidableEq, Repr

inductive HttpVersion where
  | http1_0
  | http1_1
deriving DecidableEq, Repr

/-- What the connection is handed over to. -/
inductive SwitchKind where
  /-- A `2xx` answered a `CONNECT`. -/
  | connectTunnel
  /-- The status was `101`. -/
  | upgrade (protocol : Bytes)
  /-- The client began with the HTTP/2 preface. -/
  | http2PriorKnowledge
deriving DecidableEq, Repr

/-- The bounds of the engine. -/
structure EngineLimits where
  max_head_bytes : ℕ := 64 * 1024
  max_headers : ℕ := 64
  max_chunk_line_bytes : ℕ := 1024
  max_trailer_bytes : ℕ := 8 * 1024
  max_pipelined : ℕ := 64
  policy : SmugglingPolicy := .strict
deriving DecidableEq, Repr

/-- A start line and the fields after it, of either direction. -/
structure Head where
  dir : Dir
  method : Bytes
  path : Bytes
  status : ℕ
  reason : Bytes
  version : HttpVersion
  headers : List Field
  framing : BodyFraming
  /-- It is a `1xx` that comes before the final response. -/
  interim : Bool
  applied : List Normalization
  /-- The bytes of the head, with the blank line. -/
  raw : Bytes
deriving DecidableEq, Repr

/-! ## Text -/

def CR : UInt8 := 13

def LF : UInt8 := 10

/-- A letter in lower case. -/
def lower (b : UInt8) : UInt8 := if 65 ≤ b ∧ b ≤ 90 then b + 32 else b

def eqIgnoreAsciiCase (a b : Bytes) : Bool := a.map lower = b.map lower

/-- Space, tab, line feed, form feed or carriage return. -/
def isAsciiWhitespace (b : UInt8) : Bool := b ∈ [32, 9, 10, 12, 13]

def isAsciiDigit (b : UInt8) : Bool := 48 ≤ b ∧ b ≤ 57

def trimAscii (s : Bytes) : Bytes :=
  ((s.dropWhile isAsciiWhitespace).reverse.dropWhile isAsciiWhitespace).reverse

/-- The number that digits stand for, if it fits in 64 bits. -/
def digitsValue (base : ℕ) (digits : List ℕ) : Option ℕ :=
  let n := digits.foldl (fun acc d => acc * base + d) 0
  if n < 2^64 then some n else none

/-- A `Content-Length`: digits only. -/
def parseDecimal (s : Bytes) : Option ℕ :=
  if s = [] ∨ ¬s.all isAsciiDigit then none
  else digitsValue 10 (s.map fun b => b.toNat - 48)

/-- A chunk size. `u64::from_str_radix` takes one leading `+`. -/
def parseHex (s : Bytes) : Option ℕ :=
  let digits := if s.head? = some 43 then s.tail else s
  if digits = [] then none
  else (digits.mapM hexDigit).bind (digitsValue 16)

/-! ## Fields -/

def valuesOf (headers : List Field) (name : Bytes) : List Bytes :=
  (headers.filter fun f => eqIgnoreAsciiCase f.1 name).map Prod.snd

/-- The members of comma-separated lists, without those that are empty. -/
def listMembers (values : List Bytes) : List Bytes :=
  ((values.flatMap (List.splitOn 44)).map trimAscii).filter (· ≠ [])

def headerValue (headers : List Field) (name : Bytes) : Option Bytes :=
  (headers.find? fun f => eqIgnoreAsciiCase f.1 name).map Prod.snd

def isChunked (coding : Bytes) : Bool := eqIgnoreAsciiCase coding (ascii "chunked")

/-- Only `chunked` and `identity` are known, and `chunked` must come last. -/
def checkCodings : List Bytes → Except HttpPoison Unit
  | [] => .ok ()
  | coding :: rest =>
    if ¬isChunked coding ∧ ¬eqIgnoreAsciiCase coding (ascii "identity") then
      .error .unknownTransferCoding
    else if isChunked coding ∧ rest ≠ [] then .error .nonFinalChunked
    else checkCodings rest

/-- Whether the `Transfer-Encoding` fields make the body chunked. -/
def transferEncoding (te_values : List Bytes) (observe : Bool) : Except HttpPoison Bool :=
  if te_values = [] then .ok false
  else if 1 < te_values.length ∧ ¬observe then .error .duplicateTransferEncoding
  else
    let codings := listMembers te_values
    if observe then .ok (codings.any isChunked)
    else do
      checkCodings codings
      if codings.getLast?.any isChunked then .ok true else .error .nonFinalChunked

/-- The lengths in the `Content-Length` fields. -/
def contentLengths (cl_values : List Bytes) (observe : Bool) : Except HttpPoison (List ℕ) :=
  if observe then .ok ((listMembers cl_values).filterMap parseDecimal)
  else (listMembers cl_values).mapM fun t =>
    match parseDecimal t with
    | some n => .ok n
    | none => .error .invalidContentLength

/-- The one length that the `Content-Length` fields agree on. -/
def contentLength (cl_values : List Bytes) (observe chunked : Bool) :
    Except HttpPoison (Option ℕ × List Normalization) := do
  match ← contentLengths cl_values observe with
  | [] =>
    if cl_values ≠ [] ∧ ¬observe ∧ ¬chunked then .error .invalidContentLength
    else .ok (none, [])
  | first :: rest =>
    if rest.any (· ≠ first) then
      if ¬observe then .error .conflictingContentLength else .ok (some first, [])
    else if rest ≠ [] then .ok (some first, [.collapsedContentLength])
    else .ok (some first, [])

/-- Whether the body is chunked, its length, and what was done about an ambiguity. -/
def framingHeaders (headers : List Field) (policy : SmugglingPolicy) :
    Except HttpPoison (Bool × Option ℕ × List Normalization) := do
  let observe := policy = .observe
  let chunked ← transferEncoding (valuesOf headers (ascii "transfer-encoding")) observe
  let (content_length, applied) ←
    contentLength (valuesOf headers (ascii "content-length")) observe chunked
  if chunked ∧ content_length.isSome then
    match policy with
    | .strict => .error .contentLengthWithTransferEncoding
    | .normalize => .ok (true, none, applied ++ [.strippedContentLength])
    | .observe => .ok (true, none, applied)
  else .ok (chunked, content_length, applied)

def requestFraming (headers : List Field) (policy : SmugglingPolicy) :
    Except HttpPoison (BodyFraming × List Normalization) := do
  match ← framingHeaders headers policy with
  | (true, _, applied) => .ok (.chunked, applied)
  | (false, some (n + 1), applied) => .ok (.contentLength (n + 1), applied)
  | (false, _, applied) => .ok (.none, applied)

/-- Body framing for a response, given whether the request was a `HEAD`. -/
def responseFraming (status : ℕ) (request_was_head : Bool) (headers : List Field)
    (policy : SmugglingPolicy) : Except HttpPoison (BodyFraming × List Normalization) :=
  if request_was_head ∨ (100 ≤ status ∧ status ≤ 199) ∨ status = 204 ∨ status = 304 then
    .ok (.none, [])
  else do
    match ← framingHeaders headers policy with
    | (true, _, applied) => .ok (.chunked, applied)
    | (false, some 0, applied) => .ok (.none, applied)
    | (false, some (n + 1), applied) => .ok (.contentLength (n + 1), applied)
    | (false, none, applied) => .ok (.untilClose, applied)

/-! ## Heads -/

/-- Refuse a carriage return with no line feed after it, and a line that continues the one before.
`first` says that nothing of the head came before. -/
def checkHeadBytes (first : Bool) : Bytes → Except HttpPoison Unit
  | [] => .ok ()
  | [b] => if b = CR then .error .bareCr else .ok ()
  | b :: c :: rest =>
    if b = CR then
      if c ≠ LF then .error .bareCr
      else if ¬first ∧ (rest.head? = some 32 ∨ rest.head? = some 9) ∧ 2 ≤ rest.length then
        .error .obsFold
      else checkHeadBytes false rest
    else checkHeadBytes false (c :: rest)

/-- Refuse a second `Host`. -/
def checkSingleHost (headers : List Field) : Except HttpPoison Unit :=
  if 1 < (valuesOf headers (ascii "host")).length then .error .duplicateHost else .ok ()

def tokens (headers : List Field) (name want : Bytes) : Bool :=
  (valuesOf headers name).any fun v => (v.splitOn 44).any fun t => eqIgnoreAsciiCase (trimAscii t) want

/-- Whether a message says that the connection closes after it. -/
def signalsClose (head : Head) : Bool :=
  tokens head.headers (ascii "connection") (ascii "close") ||
    (head.version = .http1_0 && !tokens head.headers (ascii "connection") (ascii "keep-alive"))

/-- What `httparse` reports of a complete head. -/
structure HeadParts where
  /-- The length of the head. The program ignores it. -/
  consumed : ℕ
  method : Option Bytes
  path : Option Bytes
  code : Option ℕ
  reason : Option Bytes
  version : Option ℕ
  headers : List Field
deriving DecidableEq, Repr

/-- The outcome of `httparse`. -/
inductive Parsed where
  | complete (parts : HeadParts)
  | incomplete
  | error
deriving DecidableEq, Repr

/-- `Request::parse` and `Response::parse` with a number of header slots. -/
abbrev Httparse : Type := Dir → ℕ → Bytes → Parsed

/-- What `httparse` reports of some heads, where it refuses all others. -/
def Httparse.ofTable (heads : List (Bytes × HeadParts)) : Httparse := fun _ _ region =>
  match heads.lookup region with
  | some parts => .complete parts
  | none => .error

def HEADER_STACK_SLOTS : ℕ := 64

def headerSlots (max_headers : ℕ) : ℕ :=
  if max_headers ≤ HEADER_STACK_SLOTS then max max_headers 1 else max_headers

def versionOf : Option ℕ → Option HttpVersion
  | some 0 => some .http1_0
  | some 1 => some .http1_1
  | _ => none

/-- The head in a region. The framing is decided by the caller. -/
def parseHead (hp : Httparse) (dir : Dir) (region : Bytes) (max_headers : ℕ) : Option Head :=
  match hp dir (headerSlots max_headers) region with
  | .complete parts => do
    let headers := parts.headers.takeWhile fun f => f.1 ≠ []
    match dir with
    | .request =>
      let method ← parts.method
      let path ← parts.path
      let version ← versionOf parts.version
      some { dir, method, path, status := 0, reason := [], version, headers, framing := .none,
             interim := false, applied := [], raw := region }
    | .response =>
      let status ← parts.code
      let version ← versionOf parts.version
      some { dir, method := [], path := [], status, reason := parts.reason.getD [], version, headers,
             framing := .none, interim := false, applied := [], raw := region }
  | .incomplete => none
  | .error => none

end Flowscope.Http
