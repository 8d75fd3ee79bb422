import Flowscope.Http.Scan
import Flowscope.Http.Engine

/-!
# HTTP/1: what is at the front of a buffer

What a direction does next is determined by its state and by the bytes at the front of its buffer.
`ahead` says what is there, with no regard to how far the buffer has been scanned before. Payload is
looked at one byte at a time, so that it does not matter how much of it has arrived.

Once `ahead` finds something, it finds the same when more bytes follow (`ahead_append`). There is one
exception: a chunk-size line of exactly the largest allowed length, of which all but the last byte
is there, is taken for one that is too long.
-/

namespace Flowscope.Http

open List

/-- What is at the front of a buffer. -/
inductive Ahead where
  /-- Nothing complete. -/
  | wait
  /-- Something that cannot be framed. -/
  | lost (reason : HttpPoison)
  /-- The HTTP/2 preface. -/
  | preface
  | head (head : Head)
  /-- The end of a message. -/
  | done
  /-- A byte of a body, and where the body is after it. -/
  | payload (next : BodyState)
  /-- The line of a chunk or the CRLF after it, and where the body is after it. -/
  | framing (n : ℕ) (next : BodyState)
  | trailers (n : ℕ)
deriving DecidableEq

/-- What a complete head comes to. -/
def regionAhead (hp : Httparse) (limits : EngineLimits) (dir : Dir) (region : Bytes) : Ahead :=
  match (if limits.policy ≠ .observe then checkHeadBytes true region else .ok ()) with
  | .error reason => .lost reason
  | .ok () =>
    match parseHead hp dir region limits.max_headers with
    | none => .lost .malformedHead
    | some head => .head head

/-- Where a head is expected. -/
def headAhead (hp : Httparse) (limits : EngineLimits) (dir : Dir) (buf : Bytes) : Ahead :=
  match (if dir = .request then prefaceMatch buf else .no) with
  | .yes => .preface
  | .beginning => .wait
  | .no =>
    match blankFrom buf 0 with
    | none => if limits.max_head_bytes < buf.length then .lost .headOverflow else .wait
    | some hlen =>
      if limits.max_head_bytes < hlen then .lost .headOverflow
      else regionAhead hp limits dir (buf.take hlen)

/-- Where the trailer section is expected, after a last chunk's line that ends at `eol`. -/
def trailerAhead (limits : EngineLimits) (buf : Bytes) (eol : ℕ) : Ahead :=
  match trailerFrom buf (eol + 2) with
  | none => if limits.max_trailer_bytes < buf.length then .lost .trailerOverflow else .wait
  | some end_ => if limits.max_trailer_bytes < end_ then .lost .trailerOverflow else .trailers end_

/-- Where a chunk-size line is expected. -/
def lineAhead (limits : EngineLimits) (buf : Bytes) : Ahead :=
  match findCrlf buf with
  | none =>
    if limits.max_chunk_line_bytes < buf.length then .lost .chunkLineOverflow else .wait
  | some eol =>
    if limits.max_chunk_line_bytes < eol then .lost .chunkLineOverflow
    else
      match chunkSize (buf.take eol) with
      | none => .lost .invalidChunkSize
      | some 0 => trailerAhead limits buf eol
      | some (size + 1) => .framing (eol + 2) (.chunked (.data (size + 1)))

/-- Where the CRLF after a chunk is expected. -/
def crlfAhead (buf : Bytes) : Ahead :=
  if buf.length < 2 then .wait
  else if buf.take 2 ≠ [CR, LF] then .lost .malformedChunkTerminator
  else .framing 2 (.chunked .size)

/-- Where payload is expected. -/
def payloadAhead (buf : Bytes) (next : BodyState) : Ahead :=
  if buf = [] then .wait else .payload next

/-- The state of a chunk with `n` bytes to come. -/
def dataState (n : ℕ) : ChunkState := if n = 0 then .dataCrlf else .data n

/-- What is at the front of a direction's buffer. -/
def ahead (hp : Httparse) (limits : EngineLimits) (dir : Dir) (state : DirState) (buf : Bytes) :
    Ahead :=
  match state with
  | .head => headAhead hp limits dir buf
  | .body (.length 0) => .done
  | .body (.length (n + 1)) => payloadAhead buf (.length n)
  | .body .untilClose => payloadAhead buf .untilClose
  | .body (.chunked (.data (n + 1))) => payloadAhead buf (.chunked (dataState n))
  | .body (.chunked .dataCrlf) => crlfAhead buf
  | .body (.chunked .size) | .body (.chunked .trailer) => lineAhead limits buf
  | _ => .wait

def DirState.atLine : DirState → Bool
  | .body (.chunked .size) | .body (.chunked .trailer) => true
  | _ => false

/-! ## More bytes -/

section Append

variable {hp : Httparse} {limits : EngineLimits} {dir : Dir} {buf x : Bytes}

theorem prefaceMatch_append (h : prefaceMatch buf ≠ .beginning) (x : Bytes) :
    prefaceMatch (buf ++ x) = prefaceMatch buf := by
  have hle : min buf.length H2_PREFACE.length ≤ min (buf ++ x).length H2_PREFACE.length := by
    rw [length_append]
    omega
  have htk (n : ℕ) (hn : n ≤ buf.length) : (buf ++ x).take n = buf.take n :=
    take_append_of_le_length hn
  unfold prefaceMatch at h ⊢
  dsimp only at h ⊢
  by_cases hdf : buf.take (min buf.length H2_PREFACE.length) ≠
      H2_PREFACE.take (min buf.length H2_PREFACE.length)
  · -- the difference stays
    rw [if_pos hdf, if_pos]
    intro hsm
    apply hdf
    have := congrArg (List.take (min buf.length H2_PREFACE.length)) hsm
    rwa [take_take, take_take, min_eq_left hle, htk _ (Nat.min_le_left _ _)] at this
  · rw [if_neg hdf] at h ⊢
    by_cases hlen : H2_PREFACE.length ≤ buf.length
    · have hln' : H2_PREFACE.length ≤ (buf ++ x).length := by
        omega
      rw [min_eq_right hlen] at hdf
      rw [min_eq_right hln', htk _ hlen, if_neg hdf, if_pos hlen, if_pos hln']
    · rw [if_neg hlen] at h
      exact absurd rfl h

theorem headAhead_append (h : headAhead hp limits dir buf ≠ .wait) (x : Bytes) :
    headAhead hp limits dir (buf ++ x) = headAhead hp limits dir buf := by
  have hlen : buf.length ≤ (buf ++ x).length := (prefix_append buf x).length_le
  unfold headAhead at h ⊢
  have hpc : (if dir = .request then prefaceMatch (buf ++ x) else .no) =
      (if dir = .request then prefaceMatch buf else .no) := by
    split
    · next hdir =>
      refine prefaceMatch_append (fun hbg => ?_) x
      rw [if_pos hdir, hbg] at h
      exact h rfl
    · rfl
  rw [hpc]
  split at h
  · rfl
  · exact absurd rfl h
  · cases hsc : blankFrom buf 0 with
    | some hlen =>
      have hle := (blankFrom_eq_some.mp hsc).2.1
      rw [blankFrom_append hsc x]
      dsimp only
      rw [take_append_of_le_length hle]
    | none =>
      -- the head is too long already, whether it ends in what is added or not
      rw [hsc] at h
      have hmax : limits.max_head_bytes < buf.length := (ite_ne_right_iff.mp h).1
      rw [if_pos hmax]
      cases hsc' : blankFrom (buf ++ x) 0 with
      | none => exact if_pos (hmax.trans_le hlen)
      | some hln' => exact if_pos (hmax.trans (length_lt_of_blankFrom_append hsc hsc'))

theorem trailerAhead_append {eol : ℕ} (h : trailerAhead limits buf eol ≠ .wait) (x : Bytes) :
    trailerAhead limits (buf ++ x) eol = trailerAhead limits buf eol := by
  have hlen : buf.length ≤ (buf ++ x).length := (prefix_append buf x).length_le
  unfold trailerAhead at h ⊢
  cases hsc : trailerFrom buf (eol + 2) with
  | some end_ => rw [trailerFrom_append hsc x]
  | none =>
    rw [hsc] at h
    have hmax : limits.max_trailer_bytes < buf.length := (ite_ne_right_iff.mp h).1
    rw [if_pos hmax]
    cases hsc' : trailerFrom (buf ++ x) (eol + 2) with
    | none => exact if_pos (hmax.trans_le hlen)
    | some end_ => exact if_pos (hmax.trans (length_lt_of_trailerFrom_append hsc hsc'))

/-- A line that has the largest allowed length, but for its LF, is taken for one that is too long. -/
theorem lineAhead_append (h : lineAhead limits buf ≠ .wait)
    (hli : findCrlf (buf ++ x) ≠ some limits.max_chunk_line_bytes) :
    lineAhead limits (buf ++ x) = lineAhead limits buf := by
  have hlen : buf.length ≤ (buf ++ x).length := (prefix_append buf x).length_le
  unfold lineAhead at h ⊢
  cases hsc : findCrlf buf with
  | some eol =>
    have hlt := findCrlf_lt hsc
    rw [findCrlf_append hsc x]
    rw [hsc] at h
    dsimp only at h ⊢
    rw [take_append_of_le_length (by omega)]
    split
    · rfl
    · next hmax =>
      rw [if_neg hmax] at h
      split
      · rfl
      · next hsz =>
        rw [hsz] at h
        exact trailerAhead_append h x
      · rfl
  | none =>
    rw [hsc] at h
    have hmax : limits.max_chunk_line_bytes < buf.length := (ite_ne_right_iff.mp h).1
    rw [if_pos hmax]
    cases hsc' : findCrlf (buf ++ x) with
    | none => exact if_pos (hmax.trans_le hlen)
    | some eol =>
      have hle := length_le_of_findCrlf_append hsc hsc'
      have hne : eol ≠ limits.max_chunk_line_bytes := fun heq => hli (heq ▸ hsc')
      exact if_pos (by omega)

theorem crlfAhead_append (h : crlfAhead buf ≠ .wait) (x : Bytes) :
    crlfAhead (buf ++ x) = crlfAhead buf := by
  unfold crlfAhead at h ⊢
  have hlen : ¬buf.length < 2 := by
    intro hlt
    rw [if_pos hlt] at h
    exact h rfl
  have hln' : ¬(buf ++ x).length < 2 := by
    rw [length_append]
    omega
  rw [if_neg hlen, if_neg hln', take_append_of_le_length (by omega)]

theorem payloadAhead_append {next : BodyState} (h : payloadAhead buf next ≠ .wait) (x : Bytes) :
    payloadAhead (buf ++ x) next = payloadAhead buf next := by
  unfold payloadAhead at h ⊢
  have hbuf : buf ≠ [] := by
    intro hnil
    rw [if_pos hnil] at h
    exact h rfl
  rw [if_neg hbuf, if_neg (append_ne_nil_of_left_ne_nil hbuf x)]

/-- What is found at the front of a buffer is found there when more bytes follow. -/
theorem ahead_append {state : DirState} (h : ahead hp limits dir state buf ≠ .wait)
    (hli : state.atLine = true → findCrlf (buf ++ x) ≠ some limits.max_chunk_line_bytes) :
    ahead hp limits dir state (buf ++ x) = ahead hp limits dir state buf := by
  match state with
  | .head => exact headAhead_append h x
  | .body (.length 0) => rfl
  | .body (.length (n + 1)) => exact payloadAhead_append h x
  | .body .untilClose => exact payloadAhead_append h x
  | .body (.chunked (.data 0)) => rfl
  | .body (.chunked (.data (n + 1))) => exact payloadAhead_append h x
  | .body (.chunked .dataCrlf) => exact crlfAhead_append h x
  | .body (.chunked .size) => exact lineAhead_append h (hli rfl)
  | .body (.chunked .trailer) => exact lineAhead_append h (hli rfl)
  | .tunnel => rfl
  | .closed => rfl
  | .desynced => rfl
  | .resync => rfl

end Append

end Flowscope.Http
