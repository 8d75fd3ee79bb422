import Flowscope.Http2.Huffman

/-!
# HPACK field blocks: the tables and the decoder

The dynamic table and the decoder of `src/http2/hpack.rs`. Integers are `u64` in the program, and a
continuation that leaves the type is refused; they are natural numbers here, with that bound written
out.
-/

namespace Flowscope.Http2

open Except

/-- A header field: its name and its value. -/
abbrev Field : Type := Bytes × Bytes

/-- The static table, index 1 first. -/
def STATIC_TABLE : List Field :=
  [(":authority", ""), (":method", "GET"), (":method", "POST"), (":path", "/"),
    (":path", "/index.html"), (":scheme", "http"), (":scheme", "https"), (":status", "200"),
    (":status", "204"), (":status", "206"), (":status", "304"), (":status", "400"),
    (":status", "404"), (":status", "500"), ("accept-charset", ""),
    ("accept-encoding", "gzip, deflate"), ("accept-language", ""), ("accept-ranges", ""),
    ("accept", ""), ("access-control-allow-origin", ""), ("age", ""), ("allow", ""),
    ("authorization", ""), ("cache-control", ""), ("content-disposition", ""),
    ("content-encoding", ""), ("content-language", ""), ("content-length", ""),
    ("content-location", ""), ("content-range", ""), ("content-type", ""), ("cookie", ""),
    ("date", ""), ("etag", ""), ("expect", ""), ("expires", ""), ("from", ""), ("host", ""),
    ("if-match", ""), ("if-modified-since", ""), ("if-none-match", ""), ("if-range", ""),
    ("if-unmodified-since", ""), ("last-modified", ""), ("link", ""), ("location", ""),
    ("max-forwards", ""), ("proxy-authenticate", ""), ("proxy-authorization", ""), ("range", ""),
    ("referer", ""), ("refresh", ""), ("retry-after", ""), ("server", ""), ("set-cookie", ""),
    ("strict-transport-security", ""), ("transfer-encoding", ""), ("user-agent", ""),
    ("vary", ""), ("via", ""), ("www-authenticate", "")].map
    fun e => (ascii e.1, ascii e.2)

/-- What an entry is charged besides its bytes. -/
def ENTRY_OVERHEAD : ℕ := 32

/-- How many fields one block may have. -/
def MAX_FIELDS_PER_BLOCK : ℕ := 256

def entrySize (name value : Bytes) : ℕ := name.length + value.length + ENTRY_OVERHEAD

/-! ## The dynamic table -/

/-- The table that the two ends of a connection build alike. -/
structure DynamicTable where
  /-- The entries, the newest first. -/
  entries : List Field
  /-- What they are charged together. -/
  size : ℕ
  max_size : ℕ
  /-- A limit that the peer cannot raise. -/
  hard_max_size : ℕ

namespace DynamicTable

def new (max_size hard_max_size : ℕ) : DynamicTable :=
  ⟨[], 0, min max_size hard_max_size, hard_max_size⟩

/-- Drop entries, listed from the oldest on, until the rest fits: those left, and what they are
charged. -/
def evictFrom (max_size : ℕ) : List Field → ℕ → List Field × ℕ
  | [], size => if max_size < size then ([], 0) else ([], size)
  | oldest :: rest, size =>
    if max_size < size then evictFrom max_size rest (size - entrySize oldest.1 oldest.2)
    else (oldest :: rest, size)

/-- Drop the oldest entries until the rest fits. -/
def evict (t : DynamicTable) : DynamicTable :=
  let (left, size) := evictFrom t.max_size t.entries.reverse t.size
  { t with entries := left.reverse, size := size }

/-- Apply a new limit. -/
def setMaxSize (t : DynamicTable) (n : ℕ) : DynamicTable :=
  evict { t with max_size := min n t.hard_max_size }

/-- Add an entry. One that is larger than the whole table empties it, and is not added. -/
def insert (t : DynamicTable) (name value : Bytes) : DynamicTable :=
  let sz := entrySize name value
  if t.max_size < sz then { t with entries := [], size := 0 }
  else evict { t with size := t.size + sz, entries := (name, value) :: t.entries }

end DynamicTable

/-! ## Integers and strings -/

/-- The continuation of an integer: seven bits a byte, the least significant first. -/
def decodeGroups (value shift : ℕ) : Bytes → Except Http2Error (ℕ × Bytes)
  | [] => .error .hpackTruncated
  | b :: rest =>
    if 63 ≤ shift then .error .hpackIntegerOverflow
    else
      let value := value + ((b.toNat &&& 0x7f) <<< shift)
      if 2^64 ≤ value then .error .hpackIntegerOverflow
      else if b.toNat &&& 0x80 = 0 then .ok (value, rest)
      else decodeGroups value (shift + 7) rest

/-- An integer whose first byte has `prefix_` bits for it. -/
def decodeInt (buf : Bytes) (prefix_ : ℕ) : Except Http2Error (ℕ × Bytes) :=
  match buf with
  | [] => .error .hpackTruncated
  | first :: rest =>
    let mask := (1 <<< prefix_) - 1
    let value := first.toNat &&& mask
    if value < mask then .ok (value, rest) else decodeGroups value 0 rest

/-- A string with its length in front of it. -/
def decodeString (buf : Bytes) : Except Http2Error (Bytes × Bytes) :=
  match buf with
  | [] => .error .hpackTruncated
  | first :: _ => do
    let (len, rest) ← decodeInt buf 7
    if rest.length < len then .error .hpackTruncated
    else if first.toNat &&& 0x80 ≠ 0 then
      let out ← Huffman.decode (rest.take len)
      return (out, rest.drop len)
    else return (rest.take len, rest.drop len)

/-! ## The decoder -/

/-- The decoder of one direction of a connection. -/
structure HpackDecoder where
  table : DynamicTable

namespace HpackDecoder

def new (max_size hard_max_size : ℕ) : HpackDecoder := ⟨.new max_size hard_max_size⟩

/-- Apply a limit that was set outside of the field blocks. -/
def setMaxSize (d : HpackDecoder) (n : ℕ) : HpackDecoder := ⟨d.table.setMaxSize n⟩

/-- The field at an index of the static table, and after it the dynamic one. -/
def resolve (t : DynamicTable) (idx : ℕ) : Except Http2Error Field :=
  if idx = 0 then .error .hpackInvalidIndex
  else if idx ≤ STATIC_TABLE.length then .ok (STATIC_TABLE.getD (idx - 1) ([], []))
  else
    match t.entries[idx - STATIC_TABLE.length - 1]? with
    | some f => .ok f
    | none => .error .hpackInvalidIndex

/-- The name of a literal field: the string that follows, or the name at an index. -/
def decodeName (t : DynamicTable) (idx : ℕ) (rest : Bytes) : Except Http2Error (Bytes × Bytes) :=
  if idx = 0 then decodeString rest else (resolve t idx).map fun f => (f.1, rest)

/-- A literal field, whose name may be given by its index. -/
def decodeLiteral (t : DynamicTable) (buf : Bytes) (prefix_ : ℕ) :
    Except Http2Error (Field × Bytes) := do
  let (idx, rest) ← decodeInt buf prefix_
  let (name, rest) ← decodeName t idx rest
  let (value, rest) ← decodeString rest
  return ((name, value), rest)

/-- One representation at the front of a block: the table after it, the field, unless it is an
update of the table's size, and the rest of the block. -/
def decodeField (t : DynamicTable) (buf : Bytes) (first : UInt8) :
    Except Http2Error (DynamicTable × Option Field × Bytes) :=
  if first.toNat &&& 0x80 ≠ 0 then do
    let (idx, rest) ← decodeInt buf 7
    let f ← resolve t idx
    return (t, some f, rest)
  else if first.toNat &&& 0x40 ≠ 0 then do
    let (f, rest) ← decodeLiteral t buf 6
    return (t.insert f.1 f.2, some f, rest)
  else if first.toNat &&& 0x20 ≠ 0 then do
    let (n, rest) ← decodeInt buf 5
    if t.hard_max_size < n then .error .hpackTableSizeExceeded
    else return (t.setMaxSize n, none, rest)
  else do
    let (f, rest) ← decodeLiteral t buf 4
    return (t, some f, rest)

/-! What is left of a block is shorter than the block. -/

theorem length_of_decodeGroups {value shift n : ℕ} {buf rest : Bytes}
    (h : decodeGroups value shift buf = .ok (n, rest)) : rest.length < buf.length := by
  induction buf generalizing value shift with
  | nil => simp [decodeGroups] at h
  | cons b buf ih =>
    simp only [decodeGroups] at h
    split_ifs at h
    · cases h
      simp
    · exact (ih h).trans (by simp)

theorem length_of_decodeInt {prefix_ n : ℕ} {buf rest : Bytes}
    (h : decodeInt buf prefix_ = .ok (n, rest)) : rest.length < buf.length := by
  cases buf with
  | nil => simp [decodeInt] at h
  | cons first buf =>
    simp only [decodeInt] at h
    split_ifs at h
    · cases h
      simp
    · exact (length_of_decodeGroups h).trans (by simp)

theorem length_of_decodeString {buf out rest : Bytes} (h : decodeString buf = .ok (out, rest)) :
    rest.length < buf.length := by
  cases buf with
  | nil => simp [decodeString] at h
  | cons first buf =>
    obtain ⟨⟨len, tail⟩, hint, h⟩ := bind_eq_ok.mp h
    have hlt := length_of_decodeInt hint
    dsimp only at h
    split_ifs at h
    · obtain ⟨out', -, h⟩ := bind_eq_ok.mp h
      cases h
      rw [List.length_drop]
      omega
    · cases h
      rw [List.length_drop]
      omega

theorem length_of_decodeLiteral {t : DynamicTable} {prefix_ : ℕ} {buf rest : Bytes} {f : Field}
    (h : decodeLiteral t buf prefix_ = .ok (f, rest)) : rest.length < buf.length := by
  obtain ⟨⟨idx, r1⟩, hint, h⟩ := bind_eq_ok.mp h
  obtain ⟨⟨name, r2⟩, hnm, h⟩ := bind_eq_ok.mp h
  obtain ⟨⟨value, r3⟩, hvl, h⟩ := bind_eq_ok.mp h
  cases h
  have h₁ := length_of_decodeInt hint
  have h₂ : r2.length ≤ r1.length := by
    unfold decodeName at hnm
    split_ifs at hnm
    · exact (length_of_decodeString hnm).le
    · obtain ⟨f, -, hf⟩ := map_eq_ok hnm
      exact (congrArg List.length (Prod.mk.inj hf).2).ge
  have h₃ := length_of_decodeString hvl
  omega

theorem length_of_decodeField {t t' : DynamicTable} {buf rest : Bytes} {first : UInt8}
    {f : Option Field} (h : decodeField t buf first = .ok (t', f, rest)) :
    rest.length < buf.length := by
  unfold decodeField at h
  split_ifs at h
  · obtain ⟨⟨idx, r⟩, hint, h⟩ := bind_eq_ok.mp h
    obtain ⟨g, -, h⟩ := bind_eq_ok.mp h
    cases h
    exact length_of_decodeInt hint
  · obtain ⟨⟨g, r⟩, hlit, h⟩ := bind_eq_ok.mp h
    cases h
    exact length_of_decodeLiteral hlit
  · obtain ⟨⟨n, r⟩, hint, h⟩ := bind_eq_ok.mp h
    dsimp only at h
    split_ifs at h
    cases h
    exact length_of_decodeInt hint
  · obtain ⟨⟨g, r⟩, hlit, h⟩ := bind_eq_ok.mp h
    cases h
    exact length_of_decodeLiteral hlit

/-- Decode the rest of a block, after the fields `out`. The table is returned also when the block is
refused: what was added before the failure stays. -/
def decodeFrom (t : DynamicTable) (out : List Field) (buf : Bytes) :
    DynamicTable × Except Http2Error (List Field) :=
  match buf with
  | [] => (t, .ok out)
  | first :: tail =>
    if MAX_FIELDS_PER_BLOCK ≤ out.length then (t, .error .headerListTooLong)
    else
      match _h : decodeField t (first :: tail) first with
      | .error e => (t, .error e)
      | .ok (t', f, rest) => decodeFrom t' (out ++ f.toList) rest
termination_by buf.length
decreasing_by exact length_of_decodeField _h

def decode (d : HpackDecoder) (buf : Bytes) : HpackDecoder × Except Http2Error (List Field) :=
  let (table, fields) := decodeFrom d.table [] buf
  (⟨table⟩, fields)

end HpackDecoder

end Flowscope.Http2
