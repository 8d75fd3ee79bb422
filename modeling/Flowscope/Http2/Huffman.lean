import Flowscope.Lib.BitCode
import Flowscope.Lib.Bytes
import Flowscope.Lib.Outcome

/-!
# Huffman coding of header strings

The code of `src/http2/huffman.rs`. The encoder shifts codewords into an accumulator and takes whole
bytes out of it; the decoder shifts bits in and looks the number and its length up in the table. Both
are read here as working on one string of bits: what the encoder writes is the codewords of its
input one after another, and then fewer than eight ones (`bits_encodeInto`), and the decoder is a
scan of the bits of its input (`decode_eq_ok`). That decoding undoes encoding (`decode_encodeInto`),
and that nothing but an encoded string is decoded (`eq_encodeInto_of_decode`), are then facts about
prefix-free codes.
-/

namespace Flowscope.Http2

open List BitCode Nat

/-- Why a connection is given up, or a field block is not encoded. -/
inductive Http2Error where
  | badPreface
  | frameTooLarge
  | malformedFrame
  | interleavedContinuation
  | unexpectedContinuation
  | headerListTooLong
  | tooManyStreams
  | bufferOverflow
  | hpackInvalidIndex
  | hpackTruncated
  | hpackIntegerOverflow
  | hpackTableSizeExceeded
  | huffmanInvalid
  | invalidHeaderField
  | invalidStreamId
deriving DecidableEq, Repr

namespace Huffman

/-- The code and its length in bits, by symbol; the last is the end-of-string symbol. -/
def CODES : List (ℕ × ℕ) :=
  [(0x1ff8, 13), (0x7fffd8, 23), (0xfffffe2, 28), (0xfffffe3, 28), (0xfffffe4, 28),
    (0xfffffe5, 28), (0xfffffe6, 28), (0xfffffe7, 28), (0xfffffe8, 28), (0xffffea, 24),
    (0x3ffffffc, 30), (0xfffffe9, 28), (0xfffffea, 28), (0x3ffffffd, 30), (0xfffffeb, 28),
    (0xfffffec, 28), (0xfffffed, 28), (0xfffffee, 28), (0xfffffef, 28), (0xffffff0, 28),
    (0xffffff1, 28), (0xffffff2, 28), (0x3ffffffe, 30), (0xffffff3, 28), (0xffffff4, 28),
    (0xffffff5, 28), (0xffffff6, 28), (0xffffff7, 28), (0xffffff8, 28), (0xffffff9, 28),
    (0xffffffa, 28), (0xffffffb, 28), (0x14, 6), (0x3f8, 10), (0x3f9, 10), (0xffa, 12),
    (0x1ff9, 13), (0x15, 6), (0xf8, 8), (0x7fa, 11), (0x3fa, 10), (0x3fb, 10), (0xf9, 8),
    (0x7fb, 11), (0xfa, 8), (0x16, 6), (0x17, 6), (0x18, 6), (0x0, 5), (0x1, 5), (0x2, 5),
    (0x19, 6), (0x1a, 6), (0x1b, 6), (0x1c, 6), (0x1d, 6), (0x1e, 6), (0x1f, 6), (0x5c, 7),
    (0xfb, 8), (0x7ffc, 15), (0x20, 6), (0xffb, 12), (0x3fc, 10), (0x1ffa, 13), (0x21, 6),
    (0x5d, 7), (0x5e, 7), (0x5f, 7), (0x60, 7), (0x61, 7), (0x62, 7), (0x63, 7), (0x64, 7),
    (0x65, 7), (0x66, 7), (0x67, 7), (0x68, 7), (0x69, 7), (0x6a, 7), (0x6b, 7), (0x6c, 7),
    (0x6d, 7), (0x6e, 7), (0x6f, 7), (0x70, 7), (0x71, 7), (0x72, 7), (0xfc, 8), (0x73, 7),
    (0xfd, 8), (0x1ffb, 13), (0x7fff0, 19), (0x1ffc, 13), (0x3ffc, 14), (0x22, 6), (0x7ffd, 15),
    (0x3, 5), (0x23, 6), (0x4, 5), (0x24, 6), (0x5, 5), (0x25, 6), (0x26, 6), (0x27, 6),
    (0x6, 5), (0x74, 7), (0x75, 7), (0x28, 6), (0x29, 6), (0x2a, 6), (0x7, 5), (0x2b, 6),
    (0x76, 7), (0x2c, 6), (0x8, 5), (0x9, 5), (0x2d, 6), (0x77, 7), (0x78, 7), (0x79, 7),
    (0x7a, 7), (0x7b, 7), (0x7ffe, 15), (0x7fc, 11), (0x3ffd, 14), (0x1ffd, 13), (0xffffffc, 28),
    (0xfffe6, 20), (0x3fffd2, 22), (0xfffe7, 20), (0xfffe8, 20), (0x3fffd3, 22), (0x3fffd4, 22),
    (0x3fffd5, 22), (0x7fffd9, 23), (0x3fffd6, 22), (0x7fffda, 23), (0x7fffdb, 23),
    (0x7fffdc, 23), (0x7fffdd, 23), (0x7fffde, 23), (0xffffeb, 24), (0x7fffdf, 23),
    (0xffffec, 24), (0xffffed, 24), (0x3fffd7, 22), (0x7fffe0, 23), (0xffffee, 24),
    (0x7fffe1, 23), (0x7fffe2, 23), (0x7fffe3, 23), (0x7fffe4, 23), (0x1fffdc, 21),
    (0x3fffd8, 22), (0x7fffe5, 23), (0x3fffd9, 22), (0x7fffe6, 23), (0x7fffe7, 23),
    (0xffffef, 24), (0x3fffda, 22), (0x1fffdd, 21), (0xfffe9, 20), (0x3fffdb, 22),
    (0x3fffdc, 22), (0x7fffe8, 23), (0x7fffe9, 23), (0x1fffde, 21), (0x7fffea, 23),
    (0x3fffdd, 22), (0x3fffde, 22), (0xfffff0, 24), (0x1fffdf, 21), (0x3fffdf, 22),
    (0x7fffeb, 23), (0x7fffec, 23), (0x1fffe0, 21), (0x1fffe1, 21), (0x3fffe0, 22),
    (0x1fffe2, 21), (0x7fffed, 23), (0x3fffe1, 22), (0x7fffee, 23), (0x7fffef, 23),
    (0xfffea, 20), (0x3fffe2, 22), (0x3fffe3, 22), (0x3fffe4, 22), (0x7ffff0, 23),
    (0x3fffe5, 22), (0x3fffe6, 22), (0x7ffff1, 23), (0x3ffffe0, 26), (0x3ffffe1, 26),
    (0xfffeb, 20), (0x7fff1, 19), (0x3fffe7, 22), (0x7ffff2, 23), (0x3fffe8, 22),
    (0x1ffffec, 25), (0x3ffffe2, 26), (0x3ffffe3, 26), (0x3ffffe4, 26), (0x7ffffde, 27),
    (0x7ffffdf, 27), (0x3ffffe5, 26), (0xfffff1, 24), (0x1ffffed, 25), (0x7fff2, 19),
    (0x1fffe3, 21), (0x3ffffe6, 26), (0x7ffffe0, 27), (0x7ffffe1, 27), (0x3ffffe7, 26),
    (0x7ffffe2, 27), (0xfffff2, 24), (0x1fffe4, 21), (0x1fffe5, 21), (0x3ffffe8, 26),
    (0x3ffffe9, 26), (0xffffffd, 28), (0x7ffffe3, 27), (0x7ffffe4, 27), (0x7ffffe5, 27),
    (0xfffec, 20), (0xfffff3, 24), (0xfffed, 20), (0x1fffe6, 21), (0x3fffe9, 22), (0x1fffe7, 21),
    (0x1fffe8, 21), (0x7ffff3, 23), (0x3fffea, 22), (0x3fffeb, 22), (0x1ffffee, 25),
    (0x1ffffef, 25), (0xfffff4, 24), (0xfffff5, 24), (0x3ffffea, 26), (0x7ffff4, 23),
    (0x3ffffeb, 26), (0x7ffffe6, 27), (0x3ffffec, 26), (0x3ffffed, 26), (0x7ffffe7, 27),
    (0x7ffffe8, 27), (0x7ffffe9, 27), (0x7ffffea, 27), (0x7ffffeb, 27), (0xffffffe, 28),
    (0x7ffffec, 27), (0x7ffffed, 27), (0x7ffffee, 27), (0x7ffffef, 27), (0x7fffff0, 27),
    (0x3ffffee, 26), (0x3fffffff, 30)]

/-- The end-of-string symbol. -/
def EOS : ℕ := 256

/-- The symbol whose code is exactly `code`, of `len` bits. -/
def lookup (code len : ℕ) : Option ℕ := CODES.findIdx? fun e => e.2 = len ∧ e.1 = code

/-- What the decoder has read. -/
structure Decoding where
  out : Bytes
  /-- The bits since the last symbol, as a number. -/
  code : ℕ
  /-- How many they are. -/
  len : ℕ

def decodeBit (s : Decoding) (bit : ℕ) : Except Http2Error Decoding :=
  let code := (s.code <<< 1) ||| bit
  let len := s.len + 1
  if 30 < len then .error .huffmanInvalid
  else
    match lookup code len with
    | some sym =>
      if sym = EOS then .error .huffmanInvalid else .ok ⟨s.out ++ [UInt8.ofNat sym], 0, 0⟩
    | none => .ok ⟨s.out, code, len⟩

/-- Read one byte, from its most significant bit on. -/
def decodeByte (s : Decoding) (byte : UInt8) : Except Http2Error Decoding :=
  [7, 6, 5, 4, 3, 2, 1, 0].foldlM (fun s bit => decodeBit s ((byte.toNat >>> bit) &&& 1)) s

/-- Decode a string. What is left at the end must be padding: fewer than eight bits, all ones. -/
def decode (input : Bytes) : Except Http2Error Bytes := do
  let s ← input.foldlM decodeByte ⟨[], 0, 0⟩
  if 7 < s.len then .error .huffmanInvalid
  else if 0 < s.len ∧ s.code ≠ 2^s.len - 1 then .error .huffmanInvalid
  else .ok s.out

/-- The code of a byte. -/
def codeOf (b : UInt8) : ℕ × ℕ := CODES.getD b.toNat (0, 0)

/-- The length of an encoded string in bytes, padding included. -/
def encodedLen (input : Bytes) : ℕ := ((input.map fun b => (codeOf b).2).sum + 7) / 8

/-- What the encoder has written, and what it has accumulated. -/
structure Encoding where
  out : Bytes
  acc : ℕ
  /-- How many of the accumulator's low bits are still to be written. -/
  bits : ℕ

/-- Write the whole bytes of the accumulator. -/
def wholeBytes (s : Encoding) : Encoding :=
  if 8 ≤ s.bits then
    wholeBytes { s with bits := s.bits - 8, out := s.out ++ [UInt8.ofNat (s.acc >>> (s.bits - 8))] }
  else s
termination_by s.bits

/-- Shift the code of one byte in, and write what is whole. -/
def encodeByte (s : Encoding) (b : UInt8) : Encoding :=
  let code := (codeOf b).1
  let len := (codeOf b).2
  wholeBytes { s with acc := ((s.acc <<< len) % 2^64) ||| code, bits := s.bits + len }

/-- The encoded string, padded with ones. -/
def encodeInto (input : Bytes) : Bytes :=
  let s := input.foldl encodeByte ⟨[], 0, 0⟩
  if 0 < s.bits then
    let pad := 8 - s.bits
    s.out ++ [UInt8.ofNat (((s.acc <<< pad) % 2^64) ||| (2^pad - 1))]
  else s.out

/-! ## The table -/

theorem length_codes : CODES.length = 257 := by decide +kernel

theorem codes_bounds : ∀ e ∈ CODES, 0 < e.2 ∧ e.2 ≤ 30 ∧ e.1 < 2^e.2 := by decide +kernel

/-- No code starts another. -/
theorem codes_prefixFree :
    CODES.Pairwise fun a b =>
      ¬word a <+: word b ∧ ¬word b <+: word a :=
  pairwise_not_isPrefix (fun e he => (codes_bounds e he).2) (by decide +kernel)

/-- Fewer than eight ones are no code. -/
theorem lookup_ones : ∀ k < 8, lookup (2^k - 1) k = none := by decide +kernel

theorem codeOf_eq (b : UInt8) : CODES[b.toNat]? = some (codeOf b) := by
  have hlt : b.toNat < CODES.length := by
    rw [length_codes]
    exact b.toNat_lt.trans (by decide)
  rw [codeOf, getD_eq_getElem?_getD, getElem?_eq_getElem hlt, Option.getD_some]

theorem codeOf_bounds (b : UInt8) :
    0 < (codeOf b).2 ∧ (codeOf b).2 ≤ 30 ∧ (codeOf b).1 < 2^(codeOf b).2 :=
  codes_bounds _ (mem_of_getElem? (codeOf_eq b))

/-- Two symbols are the same if the word of one starts that of the other. -/
theorem eq_of_isPrefix {i j : ℕ} {a b : ℕ × ℕ} (ha : CODES[i]? = some a) (hb : CODES[j]? = some b)
    (h : word a <+: word b) : i = j := by
  obtain ⟨hi, rfl⟩ := List.getElem?_eq_some_iff.mp ha
  obtain ⟨hj, rfl⟩ := List.getElem?_eq_some_iff.mp hb
  have hps := List.pairwise_iff_getElem.mp codes_prefixFree
  rcases lt_trichotomy i j with hlt | heq | hlt
  · exact absurd h (hps i j hi hj hlt).1
  · exact heq
  · exact absurd h (hps j i hj hi hlt).2

variable {sym : ℕ} {w : List Bool} {s : Encoding}

/-- A symbol found is that of the bits looked up. -/
theorem lookup_eq_some (h : lookup (value w) w.length = some sym) :
    ∃ e, CODES[sym]? = some e ∧ word e = w := by
  obtain ⟨hlt, hts, -⟩ := findIdx?_eq_some_iff_getElem.mp h
  simp only [decide_eq_true_eq] at hts
  refine ⟨CODES[sym], getElem?_eq_getElem hlt, ?_⟩
  have hbn := (codes_bounds _ (getElem_mem hlt)).2.2
  apply eq_of_value_eq
  · rw [word, length_ofNat, hts.1]
  · rw [word, value_ofNat, mod_eq_of_lt hbn, hts.2]

theorem lookup_word {e : ℕ × ℕ} (h : CODES[sym]? = some e) :
    lookup (value (word e)) (word e).length = some sym := by
  have hmem := mem_of_getElem? h
  have hbn := (codes_bounds e hmem).2.2
  cases hl : lookup (value (word e)) (word e).length with
  | none =>
    have := findIdx?_eq_none_iff.mp hl e hmem
    rw [word, value_ofNat, mod_eq_of_lt hbn] at this
    simp at this
  | some sym' =>
    obtain ⟨e', he', hwd⟩ := lookup_eq_some hl
    rw [eq_of_isPrefix he' h (hwd ▸ prefix_rfl)]

/-! ## The decoder is a scan of bits -/

/-- What the decoder makes of the bits since the last symbol. -/
def read (w : List Bool) : Except Http2Error (Option ℕ) :=
  if 30 < w.length then .error .huffmanInvalid
  else
    match lookup (BitCode.value w) w.length with
    | some sym => if sym = EOS then .error .huffmanInvalid else .ok (some sym)
    | none => .ok none

def byteBits (b : UInt8) : List Bool := BitCode.ofNat 8 b.toNat

/-- The state of a decoder that has given `out` and then read the bits `acc`. -/
def Decoding.of (out : Bytes) (acc : List Bool) : Decoding := ⟨out, BitCode.value acc, acc.length⟩

theorem decodeBit_of (out : Bytes) (acc : List Bool) (b : Bool) :
    decodeBit (.of out acc) b.toNat =
      (read (acc ++ [b])).map fun r =>
        match r with
        | some sym => .of (out ++ [UInt8.ofNat sym]) []
        | none => .of out (acc ++ [b]) := by
  have hvl : (value acc) <<< 1 ||| b.toNat = value (acc ++ [b]) := by
    rw [value_append_singleton,
      ← shiftLeft_add_eq_or_of_lt (b.toNat_lt.trans_eq (by norm_num)), shiftLeft_eq, mul_comm]
  have hlen : acc.length + 1 = (acc ++ [b]).length := by simp
  unfold decodeBit read Decoding.of
  dsimp only
  rw [hvl, hlen]
  split_ifs with hlo
  · rfl
  · cases lookup (value (acc ++ [b])) (acc ++ [b]).length with
    | none => rfl
    | some sym =>
      dsimp only
      split_ifs <;> rfl

theorem foldlM_decodeBit (out : Bytes) (acc bits : List Bool) :
    bits.foldlM (fun s (b : Bool) => decodeBit s b.toNat) (.of out acc) =
      (scan read acc bits).map fun r => .of (out ++ r.1.map UInt8.ofNat) r.2 := by
  induction bits generalizing out acc with
  | nil => simp [scan, Except.map, pure, Except.pure]
  | cons b bits ih =>
    rw [foldlM_cons, decodeBit_of, scan]
    cases hr : read (acc ++ [b]) with
    | error e => rfl
    | ok r =>
      cases r with
      | none => exact ih out (acc ++ [b])
      | some sym =>
        refine (ih (out ++ [UInt8.ofNat sym]) []).trans ?_
        cases scan read [] bits <;> simp [Except.map]

theorem decodeByte_eq (s : Decoding) (byte : UInt8) :
    decodeByte s byte = (byteBits byte).foldlM (fun s (b : Bool) => decodeBit s b.toNat) s := by
  have hbit : ∀ i, (byte.toNat >>> i) &&& 1 = (byte.toNat.testBit i).toNat := by
    intro i
    rw [toNat_testBit, and_one_is_mod, shiftRight_eq_div_pow]
  unfold decodeByte byteBits
  simp only [hbit, ofNat, foldlM_cons, foldlM_nil]

variable (input : Bytes)

theorem foldlM_decodeByte (s : Decoding) :
    input.foldlM decodeByte s =
      (input.flatMap byteBits).foldlM (fun s (b : Bool) => decodeBit s b.toNat) s := by
  induction input generalizing s with
  | nil => rfl
  | cons byte input ih =>
    rw [foldlM_cons, flatMap_cons, foldlM_append, decodeByte_eq]
    exact bind_congr fun s' => ih s'

theorem value_ones (k : ℕ) : value (replicate k true) = 2^k - 1 := by
  rw [← ofNat_ones, value_ofNat, mod_eq_of_lt]
  exact sub_one_lt (by positivity)

/-- The decoder scans the bits of its input, and what is left over must be a padding of ones. -/
theorem decode_eq_ok {input out : Bytes} :
    decode input = .ok out ↔ ∃ syms : List ℕ, ∃ pad < 8,
      scan read [] (input.flatMap byteBits) = .ok (syms, replicate pad true) ∧
        syms.map UInt8.ofNat = out := by
  have hst : input.foldlM decodeByte ⟨[], 0, 0⟩ =
      (scan read [] (input.flatMap byteBits)).map fun r => .of (r.1.map UInt8.ofNat) r.2 := by
    rw [foldlM_decodeByte]
    exact foldlM_decodeBit [] [] (input.flatMap byteBits)
  rw [decode, hst]
  cases scan read [] (input.flatMap byteBits) with
  | error e => simp [Except.map]
  | ok r =>
    obtain ⟨syms, left⟩ := r
    rw [Except.map, Except.ok_bind, Decoding.of]
    dsimp only
    constructor
    · intro h
      split_ifs at h with hlo hcd
      refine ⟨syms, left.length, by omega, ?_, Except.ok.inj h⟩
      -- the bits are known by their number
      have hon : left = replicate left.length true := by
        apply eq_of_value_eq length_replicate.symm
        rw [value_ones]
        by_contra hne
        refine hcd ⟨length_pos_iff.mpr ?_, hne⟩
        rintro rfl
        exact hne rfl
      rw [← hon]
    · rintro ⟨syms', pad, hpad, heq, rfl⟩
      obtain ⟨rfl, rfl⟩ := Prod.mk.inj (Except.ok.inj heq)
      rw [value_ones, length_replicate, if_neg (by omega), if_neg (by simp)]

/-! ## The encoder writes the codes one after another -/

/-- The bits that an encoder has written or accumulated. -/
def Encoding.written (s : Encoding) : List Bool :=
  s.out.flatMap byteBits ++ BitCode.ofNat s.bits s.acc

theorem byteBits_ofNat (n : ℕ) : byteBits (UInt8.ofNat n) = ofNat 8 n := by
  exact ofNat_mod le_rfl n

theorem written_wholeBytes (s : Encoding) :
    (wholeBytes s).written = s.written ∧ (wholeBytes s).bits < 8 := by
  fun_induction wholeBytes s with
  | case1 s hbt ih =>
    refine ⟨ih.1.trans ?_, ih.2⟩
    have hsl : ofNat s.bits s.acc =
        ofNat 8 (s.acc >>> (s.bits - 8)) ++ ofNat (s.bits - 8) s.acc := by
      rw [← ofNat_add, Nat.add_sub_cancel' hbt]
    rw [Encoding.written, Encoding.written, hsl, flatMap_append, append_assoc,
      flatMap_singleton, byteBits_ofNat]
  | case2 s hbt => exact ⟨rfl, by omega⟩

theorem written_encodeByte (hbt : s.bits < 8) (b : UInt8) :
    (encodeByte s b).written = s.written ++ word (codeOf b) ∧
      (encodeByte s b).bits < 8 := by
  obtain ⟨-, hlen, hcd⟩ := codeOf_bounds b
  obtain ⟨hwr, hbt'⟩ := written_wholeBytes { s with
    acc := ((s.acc <<< (codeOf b).2) % 2^64) ||| (codeOf b).1, bits := s.bits + (codeOf b).2 }
  refine ⟨hwr.trans ?_, hbt'⟩
  rw [Encoding.written, Encoding.written, append_assoc, ofNat_shiftLeft_mod_or hcd (by omega)]
  rfl

theorem written_foldl (hbt : s.bits < 8) (input : Bytes) :
    (input.foldl encodeByte s).written =
        s.written ++ input.flatMap (fun b => word (codeOf b)) ∧
      (input.foldl encodeByte s).bits < 8 := by
  induction input generalizing s with
  | nil => exact ⟨by simp, hbt⟩
  | cons b input ih =>
    obtain ⟨hwr, hbt'⟩ := written_encodeByte hbt b
    rw [flatMap_cons, ← append_assoc, ← hwr]
    exact ih hbt'

/-- An encoded string is the codes of its bytes, and fewer than eight ones. -/
theorem bits_encodeInto :
    ∃ pad < 8, (encodeInto input).flatMap byteBits =
      input.flatMap (fun b => word (codeOf b)) ++ replicate pad true := by
  obtain ⟨hwr, hbt⟩ := written_foldl (s := ⟨[], 0, 0⟩) (by norm_num) input
  unfold encodeInto
  dsimp only
  obtain ⟨s, hs⟩ : ∃ s, s = input.foldl encodeByte ⟨[], 0, 0⟩ := ⟨_, rfl⟩
  rw [← hs] at hwr hbt ⊢
  have hcs : s.written = input.flatMap (fun b => word (codeOf b)) := by
    rw [hwr]
    rfl
  rw [← hcs]
  split_ifs with hpos
  · refine ⟨8 - s.bits, by omega, ?_⟩
    have hon : 2^(8 - s.bits) - 1 < 2^(8 - s.bits) := sub_one_lt (by positivity)
    have hls : ofNat 8 (((s.acc <<< (8 - s.bits)) % 2^64) ||| (2^(8 - s.bits) - 1)) =
        ofNat s.bits s.acc ++ replicate (8 - s.bits) true := by
      rw [← ofNat_ones, ← ofNat_shiftLeft_mod_or hon (by omega : _ ≤ 64),
        Nat.add_sub_cancel' hbt.le]
    rw [flatMap_append, flatMap_singleton, byteBits_ofNat, hls, Encoding.written, append_assoc]
  · refine ⟨0, by omega, ?_⟩
    have hzr : s.bits = 0 := by omega
    rw [Encoding.written, hzr, ofNat, append_nil, replicate_zero, append_nil]

theorem length_flatMap_byteBits (out : Bytes) : (out.flatMap byteBits).length = 8 * out.length := by
  induction out with
  | nil => rfl
  | cons b out ih =>
    rw [flatMap_cons, length_append, byteBits, length_ofNat, length_cons]
    omega

theorem length_encodeInto : (encodeInto input).length = encodedLen input := by
  obtain ⟨pad, hpad, hbt⟩ := bits_encodeInto input
  have hlen := congrArg length hbt
  rw [length_flatMap_byteBits, length_append, length_replicate, length_flatMap]
    at hlen
  simp only [word, length_ofNat] at hlen
  unfold encodedLen
  omega

theorem spells_codeOf (b : UInt8) : BitCode.Spells read (word (codeOf b)) b.toNat := by
  obtain ⟨hpos, hlen, -⟩ := codeOf_bounds b
  have hln : (word (codeOf b)).length = (codeOf b).2 := length_ofNat _ _
  refine ⟨?_, ?_, fun p hp hne hls => ?_⟩
  · rw [← length_pos_iff, hln]
    exact hpos
  · have hbyt := b.toNat_lt
    rw [read, if_neg (by omega), lookup_word (codeOf_eq b)]
    dsimp only
    rw [if_neg (by unfold EOS; omega)]
  · have hsh := hp.length_le
    rw [read, if_neg (by omega)]
    cases hl : lookup (value p) p.length with
    | none => rfl
    | some sym =>
      -- a word within a word would be a code that starts another
      obtain ⟨e, he, rfl⟩ := lookup_eq_some hl
      obtain rfl := eq_of_isPrefix he (codeOf_eq b) hp
      rw [codeOf_eq] at he
      exact absurd (congrArg word (Option.some.inj he)).symm hls

theorem silent_ones {pad : ℕ} (h : pad < 8) : BitCode.Silent read (replicate pad true) := by
  intro p hp _
  obtain ⟨k, hk, rfl⟩ : ∃ k ≤ pad, p = replicate k true := by
    refine ⟨p.length, by simpa using hp.length_le, eq_replicate_iff.mpr ⟨rfl, fun b hb => ?_⟩⟩
    exact eq_of_mem_replicate (hp.subset hb)
  rw [read, length_replicate, if_neg (by omega), value_ones, lookup_ones k (by omega)]

theorem decode_encodeInto : decode (encodeInto input) = .ok input := by
  obtain ⟨pad, hpad, hbt⟩ := bits_encodeInto input
  have hmap : input.flatMap (fun b => word (codeOf b)) =
      (input.map UInt8.toNat).flatMap fun sym => word (CODES.getD sym (0, 0)) := by
    rw [flatMap_map]
    rfl
  have hsc : scan read [] ((encodeInto input).flatMap byteBits) =
      .ok (input.map UInt8.toNat, replicate pad true) := by
    rw [hbt, hmap]
    apply scan_flatMap _ (silent_ones hpad)
    intro sym hsym
    obtain ⟨b, -, rfl⟩ := mem_map.mp hsym
    exact spells_codeOf b
  have hbc : (input.map UInt8.toNat).map UInt8.ofNat = input := by
    rw [map_map]
    exact (map_congr_left fun b _ => UInt8.ofNat_toNat).trans (map_id _)
  exact decode_eq_ok.2 ⟨_, pad, hpad, hsc, hbc⟩

/-! ## What the decoder accepts -/

/-- A symbol that is read is a byte, and its bits are that byte's code. -/
theorem eq_word_of_read (h : read w = .ok (some sym)) : w = word (codeOf (UInt8.ofNat sym)) := by
  unfold read at h
  split_ifs at h
  cases hl : lookup (value w) w.length with
  | none =>
    rw [hl] at h
    cases h
  | some sym' =>
    rw [hl] at h
    dsimp only at h
    split_ifs at h with heos
    obtain rfl : sym' = sym := by simpa using h
    obtain ⟨e, he, rfl⟩ := lookup_eq_some hl
    have hlt : sym' < 257 := length_codes ▸ (List.getElem?_eq_some_iff.mp he).1
    have hbyt : (UInt8.ofNat sym').toNat = sym' := by
      rw [UInt8.toNat_ofNat']
      unfold EOS at heos
      omega
    rw [codeOf, hbyt, getD_eq_getElem?_getD, he, Option.getD_some]

theorem byteBits_injective : Function.Injective byteBits := by
  intro b b' h
  have hvl := congrArg value h
  rw [byteBits, byteBits, value_ofNat, value_ofNat, mod_eq_of_lt b.toNat_lt,
    mod_eq_of_lt b'.toNat_lt] at hvl
  exact UInt8.toNat_inj.mp hvl

theorem flatMap_byteBits_injective : Function.Injective fun x : Bytes => x.flatMap byteBits := by
  intro x y h
  have hlen := congrArg length h
  rw [length_flatMap_byteBits, length_flatMap_byteBits] at hlen
  induction x generalizing y with
  | nil => exact (length_eq_zero_iff.mp (by simpa using hlen.symm)).symm
  | cons b x ih =>
    obtain ⟨b', y, rfl⟩ : ∃ b' y', y = b' :: y' := by
      cases y with
      | nil => simp at hlen
      | cons b' y => exact ⟨b', y, rfl⟩
    obtain ⟨hb, hrs⟩ := append_inj h (by simp [byteBits])
    rw [byteBits_injective hb, ih hrs (by simpa using hlen)]

/-- Only one string decodes to `s`: its padding is as long as the bits before it ask for. -/
theorem eq_encodeInto_of_decode {x s : Bytes} (h : decode x = .ok s) : x = encodeInto s := by
  obtain ⟨syms, pad, hpad, hsc, rfl⟩ := decode_eq_ok.1 h
  obtain ⟨pad', hpd', hbt'⟩ := bits_encodeInto (syms.map UInt8.ofNat)
  have hbt : x.flatMap byteBits =
      (syms.map UInt8.ofNat).flatMap (fun b => word (codeOf b)) ++
        replicate pad true := by
    rw [flatMap_map]
    exact flatMap_of_scan eq_word_of_read hsc
  have hlen := congrArg length hbt
  have hln' := congrArg length hbt'
  rw [length_flatMap_byteBits, length_append, length_replicate] at hlen hln'
  obtain rfl : pad = pad' := by omega
  exact flatMap_byteBits_injective (hbt.trans hbt'.symm)

/-- Huffman coding is a bijection between the byte strings and the strings that the decoder accepts,
and the length that the encoder announces is the right one. -/
theorem decode_eq_ok_iff_eq_encode (s x : Bytes) :
    decode (encodeInto s) = .ok s ∧ encodedLen s = (encodeInto s).length ∧
      (decode x = .ok s ↔ x = encodeInto s) := by
  refine ⟨decode_encodeInto s, (length_encodeInto s).symm, eq_encodeInto_of_decode, ?_⟩
  rintro rfl
  exact decode_encodeInto s

end Huffman

end Flowscope.Http2
