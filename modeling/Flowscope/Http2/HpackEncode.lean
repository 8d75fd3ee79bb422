import Flowscope.Http2.Hpack

/-!
# HPACK field blocks: the encoder

The encoder of `src/http2/hpack_encode.rs`. Its dynamic table is its idea of the decoder's at the
other end. What the program appends to an output buffer is returned here.
-/

namespace Flowscope.Http2

/-- How a field may be compressed. -/
inductive HeaderSensitivity where
  /-- It may enter the dynamic table. -/
  | indexable
  /-- It is not added to the table. -/
  | notIndexed
  /-- It is never added to a table, here or further on. -/
  | sensitive
deriving DecidableEq, Repr

/-- When a string is Huffman-coded. -/
inductive HuffmanPolicy where
  | whenSmaller
  | never
deriving DecidableEq, Repr

/-- The default classification of a field, by its name. -/
def defaultSensitivity (name _value : Bytes) : HeaderSensitivity :=
  if name ∈ ["authorization", "proxy-authorization", "cookie", "set-cookie"].map ascii then
    .sensitive
  else if name ∈ [":path", "date", "etag", "if-none-match", "last-modified", "content-length",
      "x-request-id", "traceparent"].map ascii then
    .notIndexed
  else .indexable

/-- Where a field stands in the tables. -/
inductive Match where
  /-- Name and value are at this index. -/
  | full (idx : ℕ)
  /-- The name is at this index. -/
  | name (idx : ℕ)
  | none
deriving DecidableEq, Repr

/-- Look for a field in a table whose first entry has the index `idx`; `name_only` is the first index
so far with its name. -/
def scanTable (name value : Bytes) : ℕ → Option ℕ → List Field → Match
  | _, name_only, [] => name_only.elim .none .name
  | idx, name_only, (n, v) :: rest =>
    if n ≠ name then scanTable name value (idx + 1) name_only rest
    else if v = value then .full idx
    else scanTable name value (idx + 1) (name_only.or (some idx)) rest

/-- Look for a field in the static table, and then in the dynamic one. -/
def find (table : DynamicTable) (name value : Bytes) : Match :=
  match scanTable name value 1 none STATIC_TABLE with
  | .full idx => .full idx
  | .name idx => scanTable name value (STATIC_TABLE.length + 1) (some idx) table.entries
  | .none => scanTable name value (STATIC_TABLE.length + 1) none table.entries

/-- The continuation of an integer: seven bits a byte, the least significant first. -/
def encodeGroups (rest : ℕ) : Bytes :=
  if 128 ≤ rest then UInt8.ofNat ((rest &&& 0x7f) ||| 0x80) :: encodeGroups (rest >>> 7)
  else [UInt8.ofNat rest]
termination_by rest
decreasing_by rw [Nat.shiftRight_eq_div_pow]; omega

/-- An integer whose first byte has `prefix_bits` bits for it, and `flags` in the others. -/
def encodeInt (value prefix_bits flags : ℕ) : Bytes :=
  let mask := (1 <<< prefix_bits) - 1
  if value < mask then [UInt8.ofNat (flags ||| value)]
  else UInt8.ofNat (flags ||| mask) :: encodeGroups (value - mask)

/-- A string with its length in front of it, Huffman-coded if that makes it shorter. -/
def encodeString (s : Bytes) (policy : HuffmanPolicy) : Bytes :=
  if policy = .whenSmaller ∧ Huffman.encodedLen s < s.length then
    encodeInt (Huffman.encodedLen s) 7 0x80 ++ Huffman.encodeInto s
  else encodeInt s.length 7 0x00 ++ s

/-- The strings of a literal field: its name, unless that is at an index, and its value. -/
def literalStrings (name_idx : ℕ) (name value : Bytes) (policy : HuffmanPolicy) : Bytes :=
  (if name_idx = 0 then encodeString name policy else []) ++ encodeString value policy

/-- The pseudo-headers of HTTP/2. -/
def PSEUDO : List Bytes :=
  [":method", ":scheme", ":authority", ":path", ":status", ":protocol"].map ascii

/-- The connection-specific fields that HTTP/2 forbids. -/
def FORBIDDEN : List Bytes :=
  ["connection", "keep-alive", "proxy-connection", "transfer-encoding", "upgrade"].map ascii

/-- A byte that a name may have at position `i`. -/
def nameByteOk (i : ℕ) (b : UInt8) : Bool :=
  (97 ≤ b ∧ b ≤ 122) ∨ (48 ≤ b ∧ b ≤ 57) ∨ b ∈ ascii "!#$%&'*+-.^_`|~" ∨ (i = 0 ∧ b = 58)

/-- A space or a tab. -/
def isBlank (b : UInt8) : Bool := b = 32 ∨ b = 9

/-- Refuse a field that may not be sent. `seen_regular` says whether a field before it was no
pseudo-header; the result says so for the fields after it. -/
def validateField (name value : Bytes) (seen_regular : Bool) : Except Http2Error Bool :=
  match name with
  | [] => .error .invalidHeaderField
  | first :: _ =>
    let is_pseudo : Bool := first = 58
    if is_pseudo ∧ (name ∉ PSEUDO ∨ seen_regular) then .error .invalidHeaderField
    else if ¬is_pseudo ∧ (name ∈ FORBIDDEN ∨ name = ascii "te" ∧ value ≠ ascii "trailers") then
      .error .invalidHeaderField
    else if ¬(name.mapIdx nameByteOk).all id then .error .invalidHeaderField
    else if value.any fun b => b = 0 ∨ b = 13 ∨ b = 10 then .error .invalidHeaderField
    else if value.head?.any isBlank ∨ value.getLast?.any isBlank then .error .invalidHeaderField
    else .ok (seen_regular || !is_pseudo)

/-- The most bytes that a field is encoded to. -/
def maxEncodedLen (name value : Bytes) : ℕ := 4 + 5 + name.length + 5 + value.length

/-- The encoder of one direction of a connection. -/
structure HpackEncoder where
  table : DynamicTable
  /-- The limit that the decoder believes in. -/
  signalled_size : ℕ
  /-- The limit for the next block. -/
  target_size : ℕ
  /-- The least limit since the last signal. -/
  min_since_signal : ℕ
  huffman : HuffmanPolicy
  sensitivity : Bytes → Bytes → HeaderSensitivity
  max_block_bytes : ℕ

/-- The table size of a new connection. -/
def DEFAULT_TABLE_SIZE : ℕ := 4096

namespace HpackEncoder

def new : HpackEncoder where
  table := .new DEFAULT_TABLE_SIZE DEFAULT_TABLE_SIZE
  signalled_size := DEFAULT_TABLE_SIZE
  target_size := DEFAULT_TABLE_SIZE
  min_since_signal := DEFAULT_TABLE_SIZE
  huffman := .whenSmaller
  sensitivity := defaultSensitivity
  max_block_bytes := 64 * 1024

/-- Cap the table, whatever the peer allows. -/
def withMaxTableSize (e : HpackEncoder) (n : ℕ) : HpackEncoder :=
  { e with
    table := .new (min n e.table.max_size) n
    target_size := min e.target_size n
    signalled_size := min e.signalled_size n
    min_since_signal := min e.min_since_signal n }

def withHuffman (e : HpackEncoder) (policy : HuffmanPolicy) : HpackEncoder :=
  { e with huffman := policy }

def withSensitivity (e : HpackEncoder) (f : Bytes → Bytes → HeaderSensitivity) : HpackEncoder :=
  { e with sensitivity := f }

def withMaxBlockBytes (e : HpackEncoder) (n : ℕ) : HpackEncoder := { e with max_block_bytes := n }

/-- Apply the table size that the peer has set, from the next block on. -/
def setPeerMaxTableSize (e : HpackEncoder) (n : ℕ) : HpackEncoder :=
  let effective := min n e.table.hard_max_size
  { e with min_since_signal := min e.min_since_signal effective, target_size := effective }

/-- Move the table to a size, and tell the decoder. -/
def signalSize (e : HpackEncoder) (n : ℕ) : HpackEncoder × Bytes :=
  ({ e with table := e.table.setMaxSize n, signalled_size := n }, encodeInt n 5 0x20)

/-- Tell the decoder the least size since the last signal, and then the final one. -/
def emitSizeUpdates (e : HpackEncoder) : HpackEncoder × Bytes :=
  let (e, out) :=
    if e.min_since_signal < e.signalled_size then e.signalSize e.min_since_signal else (e, [])
  let (e, out') :=
    if e.target_size ≠ e.signalled_size then e.signalSize e.target_size else (e, [])
  ({ e with min_since_signal := e.signalled_size }, out ++ out')

/-- Encode a field with its value written out, and its name too unless it is at an index. A field
that would fill more than half of the table is not added to it. -/
def encodeLiteral (e : HpackEncoder) (name value : Bytes) (name_idx : ℕ) : HpackEncoder × Bytes :=
  let sens := e.sensitivity name value
  let strings := literalStrings name_idx name value e.huffman
  if sens = .indexable ∧ entrySize name value * 2 ≤ e.table.max_size then
    ({ e with table := e.table.insert name value }, encodeInt name_idx 6 0x40 ++ strings)
  else if sens = .sensitive then (e, encodeInt name_idx 4 0x10 ++ strings)
  else (e, encodeInt name_idx 4 0x00 ++ strings)

def encodeField (e : HpackEncoder) (name value : Bytes) : HpackEncoder × Bytes :=
  match find e.table name value with
  | .full i =>
    -- an index into the dynamic table would tell that a sensitive value was repeated
    if i ≤ STATIC_TABLE.length ∨ e.sensitivity name value ≠ .sensitive then
      (e, encodeInt i 7 0x80)
    else e.encodeLiteral name value i
  | .name i => e.encodeLiteral name value i
  | .none => e.encodeLiteral name value 0

def encodeFields (e : HpackEncoder) : List Field → HpackEncoder × Bytes
  | [] => (e, [])
  | (name, value) :: fields =>
    let (e, out) := e.encodeField name value
    let (e, out') := e.encodeFields fields
    (e, out ++ out')

/-- Check the fields of a block, and bound what they are encoded to. -/
def checkFields (seen_regular : Bool) (bound : ℕ) : List Field → Except Http2Error ℕ
  | [] => .ok bound
  | (name, value) :: fields => do
    let seen_regular ← validateField name value seen_regular
    checkFields seen_regular (min (bound + maxEncodedLen name value) (2^64 - 1)) fields

/-- Encode one field block, or refuse it before anything has changed. -/
def encode (e : HpackEncoder) (fields : List Field) : HpackEncoder × Except Http2Error Bytes :=
  if MAX_FIELDS_PER_BLOCK < fields.length then (e, .error .headerListTooLong)
  else
    match checkFields false 8 fields with
    | .error err => (e, .error err)
    | .ok bound =>
      if e.max_block_bytes < bound then (e, .error .headerListTooLong)
      else
        let (e, out) := e.emitSizeUpdates
        let (e, out') := e.encodeFields fields
        (e, .ok (out ++ out'))

end HpackEncoder

end Flowscope.Http2
