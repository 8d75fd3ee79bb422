import Flowscope.Reassembly.Basic
import Flowscope.Lib.Spans

/-!
# The out-of-order store

The pieces that `SegmentBufferReassembler` holds ahead of the stream (`Ooo` of
`src/segment_reassembler.rs`), and `absorb`, which puts a segment among them. Under the overlap
policies that compare sequence numbers, the store also knows for every byte at which offset the
segment started that supplied it (`runs`).

`absorb` is cut into the stages of the source function: the pieces that the segment touches
(`hits`), the ranges of them that it wins (`writes`), writing these (`write`), and joining the
pieces and the new bytes to one piece (`coalesce`). A buffer is its bytes and its capacity; growing
one gives it the capacity that is asked for.
-/

namespace Flowscope

/-- What a piece is charged besides its capacity. -/
def pieceOverhead : ℕ := 64

/-- What a provenance run is charged. -/
def runOverhead : ℕ := 32

/-- Whether the policy compares the starts of segments. -/
def TcpOverlapPolicy.bySeq : TcpOverlapPolicy → Bool
  | .lowerSeq | .higherSeq => true
  | .first | .last => false

/-- Whether a segment that starts at `seg` wins a byte that the segment at `existing` supplied. -/
def newWins (policy : TcpOverlapPolicy) (seg : ℕ) (existing : Option ℕ) : Bool :=
  match policy with
  | .last => true
  | .lowerSeq => existing.any fun e => seg < e
  | .higherSeq => existing.any fun e => e < seg
  | .first => false

/-- A buffer of contiguous bytes. -/
structure Piece where
  /-- Its bytes. -/
  data : List UInt8
  /-- The bytes that it has room for. -/
  capacity : ℕ
deriving DecidableEq, Repr, Inhabited

/-- The number of bytes of a piece. -/
def Piece.len (p : Piece) : ℕ := p.data.length

/-- The out-of-order store. -/
structure Ooo where
  /-- The pieces, by offset. -/
  pieces : OrdMap ℕ Piece
  /-- Which segment, by its start, supplied each range. -/
  runs : Spans ℕ
  /-- The bytes held. -/
  bytes : ℕ
  /-- The capacity of all pieces. -/
  capacity : ℕ
  /-- Arrivals since the stream moved. -/
  arrivals : ℕ
deriving DecidableEq

namespace Ooo

def new : Ooo := ⟨.empty, .empty, 0, 0, 0⟩

/-- What the store is charged. -/
def charged (o : Ooo) : ℕ :=
  o.capacity + o.pieces.size * pieceOverhead + o.runs.size * runOverhead

def firstStart (o : Ooo) : Option ℕ := o.pieces.first?.map Prod.fst

/-- Record that `[start, end_)` came from the segment that starts at `seg`. -/
def setRuns (o : Ooo) (start end_ seg : ℕ) : Ooo := { o with runs := o.runs.put start end_ seg }

/-- Remove the provenance of `[start, end_)`. -/
def cutRuns (o : Ooo) (start end_ : ℕ) : Ooo := { o with runs := o.runs.cut start end_ }

/-- The start of the segment that supplied the byte at `off`. -/
def segOf (o : Ooo) (off : ℕ) : Option ℕ := o.runs.lookup off

def runEnd (o : Ooo) (off : ℕ) : ℕ := o.runs.spanEnd off

/-- Take the piece `d` at `start` out of the store, because it is delivered. -/
def remove (o : Ooo) (start : ℕ) (d : Piece) : Ooo :=
  { o.cutRuns start (start + d.len) with
    pieces := o.pieces.erase start
    bytes := o.bytes - d.len
    capacity := o.capacity - d.capacity
    arrivals := 0 }

def pieceAt (o : Ooo) (s : ℕ) : Piece := (o.pieces.get? s).getD default

/-- The starts of the pieces that overlap or touch `[start, end_)`, found from the last one down,
in order. -/
def hits (o : Ooo) (start end_ : ℕ) : List ℕ :=
  ((o.pieces.upTo end_).reverse.takeWhile fun e => start ≤ e.1 + e.2.len).reverse.map Prod.fst

/-- The part of `[start, end_)` inside the piece at `s`. -/
def overlap (o : Ooo) (start end_ s : ℕ) : ℕ × ℕ := (max start s, min end_ (s + (o.pieceAt s).len))

/-- The ranges of `[at_, end_)` that the segment at `start` wins, run by run. -/
def wonRanges (o : Ooo) (policy : TcpOverlapPolicy) (start : ℕ) : ℕ → ℕ → ℕ → List (ℕ × ℕ)
  | 0, _, _ => []
  | n + 1, at_, end_ =>
    if at_ < end_ then
      let runEnd := if policy.bySeq then min (o.runEnd at_) end_ else end_
      let existing := if policy.bySeq then o.segOf at_ else none
      (if newWins policy start existing then [(at_, runEnd)] else []) ++
        wonRanges o policy start n runEnd end_
    else []

/-- The ranges of the piece at `s` that the segment at `start` wins. -/
def writesAt (o : Ooo) (policy : TcpOverlapPolicy) (start end_ s : ℕ) : List (ℕ × ℕ) :=
  let range := o.overlap start end_ s
  o.wonRanges policy start (range.2 - range.1) range.1 range.2

/-- Whether the segment overlaps the piece at `s`. -/
def overlaps (o : Ooo) (start end_ s : ℕ) : Bool :=
  let range := o.overlap start end_ s
  range.1 < range.2

/-- Whether the segment differs from the piece at `s` where it overlaps it. -/
def diverges (o : Ooo) (start : ℕ) (payload : List UInt8) (s : ℕ) : Bool :=
  let range := o.overlap start (start + payload.length) s
  let old := ((o.pieceAt s).data.drop (range.1 - s)).take (range.2 - range.1)
  let new := (payload.drop (range.1 - start)).take (range.2 - range.1)
  range.1 < range.2 && old ≠ new

/-- Write the payload over the range `w`, which lies in one piece. -/
def write (policy : TcpOverlapPolicy) (start : ℕ) (payload : List UInt8) (o : Ooo)
    (w : ℕ × ℕ) : Ooo :=
  match (o.pieces.upTo w.1).getLast? with
  | some (s, d) =>
    let data := (List.range' w.1 (w.2 - w.1)).foldl
      (fun data off => data.set (off - s) (payload.getD (off - start) 0)) d.data
    let o := { o with pieces := o.pieces.insert s { d with data } }
    if policy.bySeq then o.setRuns w.1 w.2 start else o
  | none => o

/-- Write the payload over what it wins, in all pieces that it touches. -/
def overwrite (o : Ooo) (policy : TcpOverlapPolicy) (start : ℕ) (payload : List UInt8) : Ooo :=
  let end_ := start + payload.length
  let writes := (o.hits start end_).flatMap fun s => o.writesAt policy start end_ s
  writes.foldl (write policy start payload) o

/-- A range of the union that `absorb` builds: a part, by index, or new bytes. -/
structure Fill where
  /-- Where it starts. -/
  lo : ℕ
  /-- Where it ends. -/
  hi : ℕ
  /-- The part, or `none` for new bytes. -/
  src : Option ℕ
deriving DecidableEq, Repr

/-- The pieces `parts`, numbered from `i`, with the new ranges between them, from `cursor` to
`unionEnd`. -/
def fillFrom (unionEnd : ℕ) : ℕ → ℕ → List (ℕ × Piece) → List Fill
  | cursor, _, [] => if cursor < unionEnd then [⟨cursor, unionEnd, none⟩] else []
  | cursor, i, (s, d) :: parts =>
    (if cursor < s then [⟨cursor, s, none⟩] else []) ++
      ⟨s, s + d.len, some i⟩ :: fillFrom unionEnd (s + d.len) (i + 1) parts

/-- The bytes of a range of the union. -/
def content (start : ℕ) (payload : List UInt8) (parts : List (ℕ × Piece)) (f : Fill) :
    List UInt8 :=
  match f.src with
  | some i => (parts.getD i default).2.data
  | none => (payload.drop (f.lo - start)).take (f.hi - f.lo)

/-- The larger of the best part so far, as its index and length, and another one; the other one
when they are equal. -/
def larger (best : Option (ℕ × ℕ)) (p : (ℕ × Piece) × ℕ) : Option (ℕ × ℕ) :=
  match best with
  | some (_, len) => if len ≤ p.1.2.len then some (p.2, p.1.2.len) else best
  | none => some (p.2, p.1.2.len)

/-- The index of the largest part, the last one of several. -/
def baseIdx (parts : List (ℕ × Piece)) : Option ℕ := (parts.zipIdx.foldl larger none).map Prod.fst

/-- Count a range of new bytes, and record where they came from. -/
def noteNew (policy : TcpOverlapPolicy) (start : ℕ) (o : Ooo) (f : Fill) : Ooo :=
  match f.src with
  | some _ => o
  | none =>
    let o := if policy.bySeq then o.setRuns f.lo f.hi start else o
    { o with bytes := o.bytes + (f.hi - f.lo) }

/-- The capacity of the base once it has room for `incoming` more bytes: twice what it was, but no
more than the budget leaves, unless it needs more. -/
def grow (base : Piece) (incoming others max_ooo_buffer : ℕ) : ℕ :=
  let need := base.len + incoming
  if base.capacity < need then
    max (min (base.capacity * 2) (max_ooo_buffer - (others + pieceOverhead))) need
  else base.capacity

/-- Where the union of the parts and the segment at `start` starts. -/
def unionStart (start : ℕ) (parts : List (ℕ × Piece)) : ℕ :=
  match parts.head? with
  | some p => min p.1 start
  | none => start

/-- Where the union of the parts and the segment up to `end_` ends. -/
def unionEnd (end_ : ℕ) (parts : List (ℕ × Piece)) : ℕ :=
  match parts.getLast? with
  | some p => max (p.1 + p.2.len) end_
  | none => end_

/-- The buffer that grows to the union, with the ranges that go before it, the nearest first, and
those that go after it: the largest part, or a new buffer when there are no parts. -/
def growFrom (payload : List UInt8) (parts : List (ℕ × Piece)) (fill : List Fill) :
    Piece × List Fill × List Fill :=
  match baseIdx parts with
  | some i =>
    let pos := fill.findIdx fun f => f.src = some i
    ((parts.getD i default).2, (fill.take pos).reverse, fill.drop (pos + 1))
  | none => (⟨[], payload.length⟩, [], fill)

/-- Join the parts, which were taken out of the store, and the new bytes to one piece: the largest
part grows at both ends. -/
def coalesce (o : Ooo) (policy : TcpOverlapPolicy) (max_ooo_buffer start : ℕ)
    (payload : List UInt8) (parts : List (ℕ × Piece)) : Ooo :=
  let fill := fillFrom (unionEnd (start + payload.length) parts) (unionStart start parts) 0 parts
  let base := growFrom payload parts fill
  let incoming := ((fill.filter fun f => f.src ≠ baseIdx parts || (baseIdx parts).isNone).map
    fun f => f.hi - f.lo).sum
  let capacity := grow base.1 incoming o.charged max_ooo_buffer
  let grown := base.2.1.foldl (fun data f => content start payload parts f ++ data) base.1.data
  let data := base.2.2.foldl (fun data f => data ++ content start payload parts f) grown
  let o := (base.2.1 ++ base.2.2).foldl (noteNew policy start) o
  { o with
    capacity := o.capacity + capacity
    pieces := o.pieces.insert (unionStart start parts) ⟨data, capacity⟩ }

/-- Take the pieces at the given starts out of the store. -/
def takeParts (o : Ooo) (hit : List ℕ) : Ooo × List (ℕ × Piece) :=
  let parts := hit.map fun s => (s, o.pieceAt s)
  ({ o with
      pieces := hit.foldl OrdMap.erase o.pieces
      capacity := o.capacity - (parts.map fun p => p.2.capacity).sum }, parts)

/-- Write the segment over what it wins, and join it with the pieces that it touches. -/
def join (o : Ooo) (policy : TcpOverlapPolicy) (max_ooo_buffer start : ℕ)
    (payload : List UInt8) : Ooo :=
  let taken := (o.overwrite policy start payload).takeParts (o.hits start (start + payload.length))
  taken.1.coalesce policy max_ooo_buffer start payload taken.2

/-- Put the segment `payload` at `start` into the store. Also whether it differs from bytes that it
overlaps, and whether it overlaps any. -/
def absorb (o : Ooo) (policy : TcpOverlapPolicy) (max_ooo_buffer start : ℕ)
    (payload : List UInt8) : Ooo × Bool × Bool :=
  let end_ := start + payload.length
  let o := { o with arrivals := min (o.arrivals + 1) (2^32 - 1) }
  let divergent := (o.hits start end_).any fun s => o.diverges start payload s
  let overlapped := (o.hits start end_).any fun s => o.overlaps start end_ s
  (o.join policy max_ooo_buffer start payload, divergent, overlapped)

end Ooo

end Flowscope
