import Flowscope.Http2.Hpack

/-!
# HTTP/2 frames

The frame layer of `src/http2/frame.rs`: a frame at the front of a buffer (`peekFrameLen`,
`parseFrame`), the frames of a field block (`writeHeaders`), and the payload of a `SETTINGS` frame.
Stream identifiers and lengths are `u32` in the program and natural numbers here; every one of them
is read from at most four bytes.

`parseFrame_frameBytes`: a frame that has been written is read back.
-/

namespace Flowscope.Http2

open List

/-- The connection preface of a client. -/
def PREFACE : Bytes := ascii "PRI * HTTP/2.0\r\n\r\nSM\r\n\r\n"

def FRAME_HEADER_LEN : ℕ := 9

/-- The types of frames that are told apart. -/
inductive FrameKind where
  | data
  | headers
  | priority
  | rstStream
  | settings
  | pushPromise
  | ping
  | goAway
  | windowUpdate
  | continuation
  | unknown (b : UInt8)
deriving DecidableEq, Repr

def FrameKind.fromByte (b : UInt8) : FrameKind :=
  if b = 0x0 then .data
  else if b = 0x1 then .headers
  else if b = 0x2 then .priority
  else if b = 0x3 then .rstStream
  else if b = 0x4 then .settings
  else if b = 0x5 then .pushPromise
  else if b = 0x6 then .ping
  else if b = 0x7 then .goAway
  else if b = 0x8 then .windowUpdate
  else if b = 0x9 then .continuation
  else .unknown b

/-! The flags, by the bit that each type gives them. -/

def END_STREAM : UInt8 := 0x1
def ACK : UInt8 := 0x1
def END_HEADERS : UInt8 := 0x4
def PADDED : UInt8 := 0x8
def PRIORITY : UInt8 := 0x20

structure Frame where
  kind : FrameKind
  flags : UInt8
  stream_id : ℕ
  /-- What is left of the payload without padding, priority and promised stream. -/
  payload : Bytes
  /-- The stream that a `PUSH_PROMISE` reserves. -/
  promised_stream_id : Option ℕ
deriving DecidableEq, Repr

def Frame.has (f : Frame) (flag : UInt8) : Bool := f.flags &&& flag ≠ 0

/-- A stream identifier: the reserved high bit is ignored. -/
def streamId (l : Bytes) : ℕ := beNat l &&& 0x7fffffff

/-- How many bytes the frame at the front of the buffer has, by its header. -/
def peekFrameLen (buf : Bytes) (max_frame_size : ℕ) : Except Http2Error (Option ℕ) :=
  if buf.length < FRAME_HEADER_LEN then .ok none
  else
    let length := beNat (buf.take 3)
    if max_frame_size < length then .error .frameTooLarge
    else
      let total := FRAME_HEADER_LEN + length
      if buf.length < total then .ok none else .ok (some total)

/-- Remove the padding, and the length of it. -/
def stripPadding (kind : FrameKind) (flags : UInt8) (payload : Bytes) : Except Http2Error Bytes :=
  if kind ∈ [.data, .headers, .pushPromise] ∧ flags &&& PADDED ≠ 0 then
    match payload with
    | [] => .error .malformedFrame
    | pad_len :: rest =>
      if payload.length < pad_len.toNat + 1 then .error .malformedFrame
      else .ok (rest.take (rest.length - pad_len.toNat))
  else .ok payload

def stripPriority (kind : FrameKind) (flags : UInt8) (payload : Bytes) : Except Http2Error Bytes :=
  if kind = .headers ∧ flags &&& PRIORITY ≠ 0 then
    if payload.length < 5 then .error .malformedFrame else .ok (payload.drop 5)
  else .ok payload

/-- Take the promised stream off a `PUSH_PROMISE` frame. -/
def splitPromised (kind : FrameKind) (payload : Bytes) : Except Http2Error (Option ℕ × Bytes) :=
  if kind = .pushPromise then
    if payload.length < 4 then .error .malformedFrame
    else .ok (some (streamId (payload.take 4)), payload.drop 4)
  else .ok (none, payload)

/-- The frame at the front of a buffer, and how many bytes it has. -/
def parseFrame (buf : Bytes) (max_frame_size : ℕ) : Except Http2Error (Option (Frame × ℕ)) := do
  match ← peekFrameLen buf max_frame_size with
  | none => return none
  | some total =>
    let kind := FrameKind.fromByte (buf.getD 3 0)
    let flags := buf.getD 4 0
    let payload ← stripPadding kind flags ((buf.take total).drop FRAME_HEADER_LEN)
    let payload ← stripPriority kind flags payload
    let (promised_stream_id, payload) ← splitPromised kind payload
    return some (⟨kind, flags, streamId ((buf.drop 5).take 4), payload, promised_stream_id⟩, total)

/-! ## Writing -/

def frameBytes (kind flags : UInt8) (stream_id : ℕ) (payload : Bytes) : Bytes :=
  beBytes 3 payload.length ++ [kind, flags] ++ beBytes 4 stream_id ++ payload

@[simp]
theorem length_frameBytes (kind flags : UInt8) (stream_id : ℕ) (payload : Bytes) :
    (frameBytes kind flags stream_id payload).length = FRAME_HEADER_LEN + payload.length := by
  simp only [frameBytes, length_append, length_beBytes, length_cons, length_nil, FRAME_HEADER_LEN]

/-- Cut a field block for frames of at most `chunk` bytes. An empty block still has its frame. -/
def blockParts (chunk : ℕ) (hchunk : 0 < chunk) (block : Bytes) : List Bytes :=
  if _h : block.length ≤ chunk then [block]
  else block.take chunk :: blockParts chunk hchunk (block.drop chunk)
termination_by block.length
decreasing_by rw [List.length_drop]; omega

/-- The flags of a part: the first may end the stream, and the last ends the field block. -/
def partFlags (first last end_stream : Bool) : UInt8 :=
  (if last then END_HEADERS else 0) ||| (if first && end_stream then END_STREAM else 0)

/-- The parts of a field block as they are sent: `HEADERS`, and then `CONTINUATION`s. -/
def writeParts (stream_id : ℕ) (end_stream : Bool) : Bool → List Bytes → Bytes
  | _, [] => []
  | first, part :: rest =>
    frameBytes (if first then 0x1 else 0x9) (partFlags first rest.isEmpty end_stream) stream_id part
      ++ writeParts stream_id end_stream false rest

/-- The size of the frames of a field block: what the peer has set, within the limits of the
protocol. -/
def clampFrameSize (max_frame_size : ℕ) : ℕ := min (max max_frame_size 16384) 16777215

theorem clampFrameSize_pos (n : ℕ) : 0 < clampFrameSize n := by
  unfold clampFrameSize
  omega

/-- A field block as `HEADERS` and as many `CONTINUATION` frames as it needs. -/
def writeHeaders (stream_id : ℕ) (block : Bytes) (end_stream : Bool) (max_frame_size : ℕ) :
    Except Http2Error Bytes :=
  if stream_id = 0 ∨ 0x7fffffff < stream_id then .error .invalidStreamId
  else
    .ok (writeParts stream_id end_stream true
      (blockParts (clampFrameSize max_frame_size) (clampFrameSize_pos _) block))

/-! ## Reading back -/

variable {payload : Bytes}

theorem peekFrameLen_frameBytes {kind flags : UInt8} {stream_id max : ℕ}
    (hmax : payload.length ≤ max) (hlen : payload.length < 2^24) (tail : Bytes) :
    peekFrameLen (frameBytes kind flags stream_id payload ++ tail) max =
      .ok (some (FRAME_HEADER_LEN + payload.length)) := by
  have hln : beNat ((frameBytes kind flags stream_id payload ++ tail).take 3) =
      payload.length := by
    unfold frameBytes
    rw [append_assoc, append_assoc, append_assoc,
      take_left' (length_beBytes 3 _), beNat_beBytes, Nat.mod_eq_of_lt (by norm_num; exact hlen)]
  have htt : (frameBytes kind flags stream_id payload ++ tail).length =
      FRAME_HEADER_LEN + payload.length + tail.length := by
    rw [length_append, length_frameBytes]
  unfold peekFrameLen
  rw [if_neg (by omega)]
  rw [hln, if_neg (by omega), if_neg (by omega)]

/-- A frame of a field block is read back. -/
theorem parseFrame_frameBytes {kind flags : UInt8} {stream_id max : ℕ}
    (hkn : kind = 0x1 ∨ kind = 0x9) (hpd : flags &&& PADDED = 0)
    (hpr : flags &&& PRIORITY = 0) (hst : stream_id < 2^31)
    (hmax : payload.length ≤ max) (hlen : payload.length < 2^24) :
    parseFrame (frameBytes kind flags stream_id payload) max =
      .ok (some (⟨.fromByte kind, flags, stream_id, payload, none⟩,
        FRAME_HEADER_LEN + payload.length)) := by
  have hpk : peekFrameLen (frameBytes kind flags stream_id payload ++ []) max = _ :=
    peekFrameLen_frameBytes hmax hlen []
  rw [append_nil] at hpk
  obtain ⟨a, b, c, habc⟩ : ∃ a b c, beBytes 3 payload.length = [a, b, c] :=
    ⟨_, _, _, rfl⟩
  obtain ⟨w, x, y, z, hid⟩ : ∃ w x y z, beBytes 4 stream_id = [w, x, y, z] :=
    ⟨_, _, _, _, rfl⟩
  have hsd : streamId [w, x, y, z] = stream_id := by
    rw [streamId, ← hid, beNat_beBytes]
    rw [show (0x7fffffff : ℕ) = 2^31 - 1 from rfl, Nat.and_two_pow_sub_one_eq_mod]
    omega
  have hby : frameBytes kind flags stream_id payload =
      a :: b :: c :: kind :: flags :: w :: x :: y :: z :: payload := by
    rw [frameBytes, habc, hid]
    rfl
  have hnt : FrameKind.fromByte kind ≠ .pushPromise := by
    rcases hkn with rfl | rfl <;> decide
  have hall : (frameBytes kind flags stream_id payload).take (FRAME_HEADER_LEN + payload.length) =
      frameBytes kind flags stream_id payload :=
    take_of_length_le (length_frameBytes kind flags stream_id payload).le
  unfold parseFrame
  rw [hpk, Except.ok_bind]
  dsimp only
  rw [hall, hby]
  simp [stripPadding, stripPriority, splitPromised, hpd, hpr, hnt, hsd,
    FRAME_HEADER_LEN]

/-! ## Settings -/

/-- The parameters of a `SETTINGS` frame that matter here. -/
structure Settings where
  header_table_size : Option ℕ
  max_frame_size : Option ℕ
  max_header_list_size : Option ℕ
deriving DecidableEq, Repr

/-- Read the entries of a `SETTINGS` payload, of six bytes each. -/
def readSettings (s : Settings) : Bytes → Settings
  | a :: b :: c :: d :: e :: f :: rest =>
    let id := beNat [a, b]
    let value := beNat [c, d, e, f]
    let s :=
      if id = 0x1 then { s with header_table_size := some value }
      else if id = 0x5 then { s with max_frame_size := some value }
      else if id = 0x6 then { s with max_header_list_size := some value }
      else s
    readSettings s rest
  | _ => s

def parseSettings (payload : Bytes) : Except Http2Error Settings :=
  if payload.length % 6 ≠ 0 then .error .malformedFrame
  else .ok (readSettings ⟨none, none, none⟩ payload)

end Flowscope.Http2
