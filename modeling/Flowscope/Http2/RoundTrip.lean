import Flowscope.Http2.Lockstep
import Flowscope.Http2.Segmentation

/-!
# Field blocks that are sent again are read back

A proxy re-emits field blocks with one encoder (`HpackEncoder.encode`) and frames them
(`writeHeaders`). `reemit_reads_back`: a parser with the default limits that is offered the preface and
these frames reports each block as one head with its fields, and nothing else.

The encoder's blocks are short enough for the parser because the encoder bounds a block before it
encodes it (`length_encode_le`).
-/

namespace Flowscope.Http2

open List

/-! ## What a block is encoded to is no longer than its bound -/

theorem length_encodeGroups_le {rest k : ℕ} (hk : 0 < k) (hrs : rest < 128^k) :
    (encodeGroups rest).length ≤ k := by
  induction k generalizing rest with
  | zero => omega
  | succ k ih =>
    rw [encodeGroups]
    split_ifs with hmr
    · have hk : 0 < k := by
        by_contra hzr
        obtain rfl : k = 0 := by omega
        omega
      have hsh : rest >>> 7 < 128^k := by
        rw [Nat.shiftRight_eq_div_pow]
        apply Nat.div_lt_of_lt_mul
        rwa [Nat.pow_succ'] at hrs
      exact Nat.succ_le_succ (ih hk hsh)
    · simp

theorem length_encodeInt_le {value p flags k : ℕ} (hk : 0 < k) (hvl : value < 128^k) :
    (encodeInt value p flags).length ≤ 1 + k := by
  unfold encodeInt
  dsimp only
  split_ifs with hsml
  · simp
  · have hgr := length_encodeGroups_le hk (lt_of_le_of_lt (Nat.sub_le value (1 <<< p - 1)) hvl)
    rw [length_cons]
    omega

theorem length_encodeString_le {s : Bytes} (hs : s.length < 128^4) (policy : HuffmanPolicy) :
    (encodeString s policy).length ≤ 5 + s.length := by
  unfold encodeString
  split_ifs with hsmr
  · have hint : (encodeInt (Huffman.encodedLen s) 7 0x80).length ≤ 1 + 4 :=
      length_encodeInt_le (by norm_num) (hsmr.2.trans hs)
    rw [length_append, Huffman.length_encodeInto]
    omega
  · have hint : (encodeInt s.length 7 0x00).length ≤ 1 + 4 := length_encodeInt_le (by norm_num) hs
    rw [length_append]
    omega

namespace HpackEncoder

variable {e : HpackEncoder}

theorem length_encodeLiteral_le {name value : Bytes} {name_idx : ℕ} (hidx : name_idx < 128^3)
    (hnm : name.length < 128^4) (hvl : value.length < 128^4) :
    (e.encodeLiteral name value name_idx).2.length ≤ maxEncodedLen name value := by
  have hint : ∀ p flags, (encodeInt name_idx p flags).length ≤ 1 + 3 :=
    fun p flags => length_encodeInt_le (by norm_num) hidx
  have hss : (literalStrings name_idx name value e.huffman).length ≤
      (5 + name.length) + (5 + value.length) := by
    have hnm' := length_encodeString_le hnm e.huffman
    have hvl' := length_encodeString_le hvl e.huffman
    unfold literalStrings
    rw [length_append]
    split_ifs
    · omega
    · rw [length_nil]
      omega
  unfold encodeLiteral maxEncodedLen
  dsimp only
  split_ifs
  · rw [length_append]
    have := hint 6 0x40
    omega
  · rw [length_append]
    have := hint 4 0x10
    omega
  · rw [length_append]
    have := hint 4 0x00
    omega

theorem length_encodeField_le {name value : Bytes} (hen : e.table.entries.length < 2^20)
    (hnm : name.length < 128^4) (hvl : value.length < 128^4) :
    (e.encodeField name value).2.length ≤ maxEncodedLen name value := by
  obtain ⟨hfu, hnd⟩ := @find_spec e.table name value
  have hix : ∀ i f, (STATIC_TABLE ++ e.table.entries)[i - 1]? = some f → i < 128^3 := by
    intro i f hi
    have hbn := (List.getElem?_eq_some_iff.mp hi).1
    have hst : STATIC_TABLE.length = 61 := rfl
    rw [List.length_append] at hbn
    omega
  unfold encodeField
  cases hfd : find e.table name value with
  | full i =>
    have hi := hix i _ (hfu i hfd).2
    dsimp only
    split_ifs
    · refine (length_encodeInt_le (by norm_num) hi).trans ?_
      unfold maxEncodedLen
      omega
    · exact length_encodeLiteral_le hi hnm hvl
  | name i =>
    obtain ⟨-, v, hi⟩ := hnd i hfd
    exact length_encodeLiteral_le (hix i _ hi) hnm hvl
  | none => exact length_encodeLiteral_le (by norm_num) hnm hvl

/-- A table that is not larger than a new one. -/
structure Modest (e : HpackEncoder) : Prop where
  counted : e.table.Counted
  fits : e.table.size ≤ e.table.max_size
  max_le : e.table.max_size ≤ 4096

theorem Modest.length_entries (h : e.Modest) : e.table.entries.length < 2^20 := by
  have hen := DynamicTable.length_le_size h.counted
  have hft := h.fits
  have hmax := h.max_le
  omega

theorem Modest.encodeField (h : e.Modest) {name value : Bytes} (hft : Field.Fits (name, value)) :
    (e.encodeField name value).1.Modest := by
  have hlen := h.length_entries
  have hsf : e.Covers e.table := ⟨prefix_rfl, by omega⟩
  rcases hsf.represented hft with ⟨hsm, -⟩ | ⟨hsz, hin, -⟩
  · rw [hsm]
    exact h
  · rw [hin]
    have hey : entrySize name value * 2 ≤ e.table.max_size := hsz
    obtain ⟨-, hcd, hle, -⟩ :=
      DynamicTable.insert_spec h.counted (show entrySize name value ≤ e.table.max_size by omega)
    have hmax := DynamicTable.max_size_insert e.table name value
    exact ⟨hcd, hle.trans_eq hmax.symm, hmax.trans_le h.max_le⟩

def boundOf (fields : List Field) : ℕ := (fields.map fun f => maxEncodedLen f.1 f.2).sum

theorem length_encodeFields_le (h : e.Modest) {fields : List Field}
    (hbn : boundOf fields ≤ 64 * 1024) :
    (e.encodeFields fields).2.length ≤ boundOf fields := by
  induction fields generalizing e with
  | nil => exact Nat.zero_le _
  | cons f fields ih =>
    obtain ⟨name, value⟩ := f
    have hcs : boundOf ((name, value) :: fields) = maxEncodedLen name value + boundOf fields := rfl
    rw [hcs, maxEncodedLen] at hbn
    have hft : Field.Fits (name, value) := by
      show 32 * (name.length + value.length + 32) < 2^64
      omega
    have hfr : (e.encodeField name value).2.length ≤ maxEncodedLen name value :=
      length_encodeField_le h.length_entries (by omega) (by omega)
    have hrs := ih (h.encodeField hft) (by omega)
    rw [encodeFields]
    rw [length_append]
    omega

variable {fields : List Field}

theorem boundOf_le_of_checkFields {seen_regular : Bool} {start bound : ℕ}
    (h : checkFields seen_regular start fields = .ok bound) :
    min (start + boundOf fields) (2^64 - 1) ≤ bound := by
  induction fields generalizing seen_regular start with
  | nil =>
    obtain rfl : start = bound := Except.ok.inj h
    exact min_le_left _ _
  | cons f fields ih =>
    obtain ⟨name, value⟩ := f
    obtain ⟨seen_regular, -, h⟩ := Except.bind_eq_ok.mp h
    have hrs := ih h
    have hcs : boundOf ((name, value) :: fields) = maxEncodedLen name value + boundOf fields := rfl
    omega

theorem length_emitSizeUpdates_le (hmin : e.min_since_signal ≤ 4096) (htr : e.target_size ≤ 4096) :
    e.emitSizeUpdates.2.length ≤ 8 := by
  have hint : ∀ n ≤ 4096, (encodeInt n 5 0x20).length ≤ 1 + 2 :=
    fun n hn => length_encodeInt_le (by norm_num) (by omega)
  have hfr := hint _ hmin
  have hsc := hint _ htr
  unfold emitSizeUpdates signalSize
  dsimp only
  split_ifs <;> simp only [length_append, length_nil] <;> omega

theorem encodeField_frame (name value : Bytes) : (e.encodeField name value).1 =
    { e with table := (e.encodeField name value).1.table } := by
  unfold encodeField encodeLiteral
  dsimp only
  split
  · split_ifs <;> rfl
  · split_ifs <;> rfl
  · split_ifs <;> rfl

theorem encodeFields_frame (fields : List Field) : (e.encodeFields fields).1 =
    { e with table := (e.encodeFields fields).1.table } := by
  induction fields generalizing e with
  | nil => rfl
  | cons f fields ih =>
    rw [encodeFields]
    rw [ih, encodeField_frame]

/-- Fields that may be sent, in a block of at most `cap` bytes. -/
def Valid (cap : ℕ) (fields : List Field) : Prop :=
  fields.length ≤ MAX_FIELDS_PER_BLOCK ∧ ∃ bound ≤ cap, checkFields false 8 fields = .ok bound

/-- The encoder is in step with a decoder, and its table and its blocks are not larger than those of a
new one. -/
structure Ready (e : HpackEncoder) (t : DynamicTable) : Prop where
  inStep : e.InStep t
  target_le : e.target_size ≤ 4096
  signalled_le : e.signalled_size ≤ 4096
  cap : e.max_block_bytes ≤ 64 * 1024

theorem boundOf_le_of_valid {cap : ℕ} (hcap : cap ≤ 64 * 1024)
    (h : Valid cap fields) : 8 + boundOf fields ≤ cap := by
  obtain ⟨-, bound, hle, hck⟩ := h
  have hbn := boundOf_le_of_checkFields hck
  omega

theorem fits_of_boundOf_le (h : boundOf fields ≤ 64 * 1024) : ∀ f ∈ fields, Field.Fits f := by
  intro f hf
  have hle : maxEncodedLen f.1 f.2 ≤ boundOf fields :=
    single_le_sum (fun _ _ => Nat.zero_le _) _ (mem_map_of_mem hf)
  unfold maxEncodedLen at hle
  show 32 * (f.1.length + f.2.length + 32) < 2^64
  omega

theorem encode_of_valid (h : Valid e.max_block_bytes fields) :
    e.encode fields = ((e.emitSizeUpdates.1.encodeFields fields).1,
      .ok (e.emitSizeUpdates.2 ++ (e.emitSizeUpdates.1.encodeFields fields).2)) := by
  obtain ⟨hct, bound, hle, hck⟩ := h
  unfold encode
  rw [if_neg (by omega), hck]
  dsimp only
  rw [if_neg (by omega)]

/-- A block of valid fields: it decodes to them, and is not longer than the encoder allows. -/
theorem Ready.encode {t : DynamicTable} (h : e.Ready t) (hvd : Valid e.max_block_bytes fields) :
    ∃ e' block t', e.encode fields = (e', .ok block) ∧
      HpackDecoder.decode ⟨t⟩ block = (⟨t'⟩, .ok fields) ∧ e'.Ready t' ∧
      e'.max_block_bytes = e.max_block_bytes ∧ block.length ≤ 64 * 1024 := by
  have hbn := boundOf_le_of_valid h.cap hvd
  have hcap := h.cap
  have hed := encode_of_valid hvd
  -- the encoder after the size updates
  have hwn := h.inStep.behind.within fields (by simp)
  have hup := e.emitSizeUpdates_fst
  have hmd : e.emitSizeUpdates.1.Modest := by
    refine ⟨hwn.counted, hwn.fits, ?_⟩
    rw [hup]
    exact (max_size_announce h.inStep.signalled h.inStep.signalled_le h.inStep.target_le).trans_le
      h.target_le
  have hus : e.emitSizeUpdates.2.length ≤ 8 :=
    length_emitSizeUpdates_le (h.inStep.le_signalled.trans h.signalled_le) h.target_le
  have hfl := length_encodeFields_le hmd (show boundOf fields ≤ 64 * 1024 by omega)
  rcases h.inStep.decode_encode (fits_of_boundOf_le (show boundOf fields ≤ 64 * 1024 by omega)) with
    ⟨err, herr⟩ | ⟨e', block, t', heq, hdc, hstp, -, -⟩
  · rw [hed] at herr
    cases (Prod.mk.inj herr).2
  · obtain ⟨he', hbl⟩ := Prod.mk.inj (hed.symm.trans heq)
    have hfm := encodeFields_frame (e := e.emitSizeUpdates.1) fields
    rw [he', hup] at hfm
    refine ⟨e', block, t', heq, hdc, ⟨hstp, ?_, ?_, ?_⟩, ?_, ?_⟩
    · rw [hfm]
      exact h.target_le
    · rw [hfm]
      exact h.target_le
    · rw [hfm]
      exact h.cap
    · rw [hfm]
    · rw [← Except.ok.inj hbl, length_append]
      omega

end HpackEncoder

/-! ## The frames of a block -/

theorem flatten_blockParts (chunk : ℕ) (hch : 0 < chunk) (block : Bytes) :
    (blockParts chunk hch block).flatten = block := by
  fun_induction blockParts chunk hch block with
  | case1 block hls => simp
  | case2 block hmr ih => rw [flatten_cons, ih, take_append_drop]

theorem length_le_of_mem_blockParts {chunk : ℕ} {hch : 0 < chunk} {block : Bytes} :
    ∀ part ∈ blockParts chunk hch block, part.length ≤ chunk := by
  fun_induction blockParts chunk hch block with
  | case1 block hls => simpa using hls
  | case2 block hmr ih =>
    rw [forall_mem_cons]
    exact ⟨length_take_le _ _, ih⟩

theorem blockParts_ne_nil (chunk : ℕ) (hch : 0 < chunk) (block : Bytes) :
    blockParts chunk hch block ≠ [] := by
  rw [blockParts]
  split_ifs <;> simp

/-- The flags of a part are just what they say. -/
theorem partFlags_spec : ∀ first last end_stream, partFlags first last end_stream &&& PADDED = 0 ∧
    partFlags first last end_stream &&& PRIORITY = 0 ∧
    decide (partFlags first last end_stream &&& END_HEADERS ≠ 0) = last ∧
    decide (partFlags first last end_stream &&& END_STREAM ≠ 0) = (first && end_stream) := by
  decide

namespace Http2Parser

section Frames

variable {p q r : Http2Parser} {d : FlowSide} {id : ℕ} {rest : Bytes}

/-- A frame of a field block at the front of the buffer is taken and handled. -/
theorem run_frame {kind flags : UInt8} {payload : Bytes} (hsn : ¬p.awaitsPreface d)
    (hkn : kind = 0x1 ∨ kind = 0x9) (hpd : flags &&& PADDED = 0)
    (hpr : flags &&& PRIORITY = 0) (hid : id < 2^31)
    (hmax : payload.length ≤ (p.dir d).max_frame_size) (hlen : payload.length < 2^24)
    (hr : p.handleFrame d ⟨.fromByte kind, flags, id, payload, none⟩ = (r, .ok ())) :
    (reader d).run (p.setBuf d (frameBytes kind flags id payload ++ rest)) =
      (reader d).run (r.setBuf d rest) := by
  have hln := length_frameBytes kind flags id payload
  have hsn' : ¬(p.setBuf d (frameBytes kind flags id payload ++ rest)).awaitsPreface d :=
    (awaitsPreface_setBuf d p _).not.mpr hsn
  apply Reader.run_of_next
  show turn d _ = _
  rw [turn, if_neg hsn', frameTurn, buf_setBuf, max_frame_size_setBuf,
    peekFrameLen_frameBytes hmax hlen]
  dsimp only
  rw [take_left' hln, drop_left' hln, setBuf_setBuf,
    parseFrame_frameBytes hkn hpd hpr hid hmax hlen]
  dsimp only
  rw [handleFrame_setBuf, hr]

/-- The parser without the open block of a direction. -/
def closeBlock (p : Http2Parser) (d : FlowSide) : Http2Parser :=
  p.modifyDir d fun s => { s with partial_block := none }

/-- A part of a block, `HEADERS` or `CONTINUATION`: the last one completes the block. -/
theorem handleFrame_part {first end_stream : Bool} {acc : Bytes} (part : Bytes) (last : Bool)
    (hbl : (p.dir d).partial_block = if first then none else some ⟨id, id, acc, end_stream⟩)
    (hacc : first = true → acc = [])
    (hcap : acc.length + part.length ≤ p.config.max_header_block_bytes) :
    p.handleFrame d ⟨.fromByte (if first then 0x1 else 0x9), partFlags first last end_stream, id,
        part, none⟩ =
      if last then (p.closeBlock d).completeBlock d id (acc ++ part) end_stream
      else (p.modifyDir d fun s => { s with
        partial_block := some ⟨id, id, acc ++ part, end_stream⟩ }, .ok ()) := by
  obtain ⟨-, -, hls, hens⟩ := partFlags_spec first last end_stream
  obtain ⟨flags, hfs⟩ : ∃ flags, flags = partFlags first last end_stream := ⟨_, rfl⟩
  rw [← hfs] at hls hens ⊢
  cases first with
  | true =>
    obtain rfl := hacc rfl
    have hsf : p.closeBlock d = p := by
      apply modifyDir_eq_self
      rw [← show (p.dir d).partial_block = none from hbl]
    obtain ⟨f, hf⟩ : ∃ f : Frame, f = ⟨.fromByte 0x1, flags, id, part, none⟩ := ⟨_, rfl⟩
    have hend : f.has END_HEADERS = last ∧ f.has END_STREAM = end_stream := by
      rw [hf]
      exact ⟨hls, hens⟩
    rw [handleFrame, hbl, hsf, nil_append]
    have hbg : p.beginBlock d f = if f.has END_HEADERS then p.completeBlock d id part end_stream
        else (p.modifyDir d fun s => { s with partial_block := some ⟨id, id, part, end_stream⟩ },
          .ok ()) := by
      rw [beginBlock, hend.2, if_neg (by rw [hf]; dsimp only; simpa using hcap)]
      rw [hf]
      rfl
    rw [hend.1] at hbg
    rw [← hbg, hf]
    rfl
  | false =>
    rw [if_neg Bool.false_ne_true] at hbl
    obtain ⟨f, hf⟩ : ∃ f : Frame, f = ⟨.fromByte 0x9, flags, id, part, none⟩ := ⟨_, rfl⟩
    have hend : f.has END_HEADERS = last := by rw [hf]; exact hls
    have hco : p.continueBlock d f = if ¬f.has END_HEADERS then
        (p.modifyDir d fun s => { s with partial_block := some ⟨id, id, acc ++ part, end_stream⟩ },
          .ok ())
        else (p.closeBlock d).completeBlock d id (acc ++ part) end_stream := by
      rw [continueBlock, hbl]
      dsimp only
      rw [if_neg (by rw [hf]; dsimp only; omega), hf]
      rfl
    rw [hend, ite_not] at hco
    rw [if_neg Bool.false_ne_true, ← hf, handleFrame, hbl,
      if_neg (by rw [hf]; simp [FrameKind.fromByte]), ← hco, hf]
    rfl

/-- The frames of a block complete it. The induction is on its parts: the first one opens the block,
and the others find it open. -/
theorem run_writeParts {parts : List Bytes} {first end_stream : Bool} {acc : Bytes}
    (hsn : ¬p.awaitsPreface d) (hid : id < 2^31)
    (hbl : (p.dir d).partial_block = if first then none else some ⟨id, id, acc, end_stream⟩)
    (hacc : first = true → acc = []) (hps : parts ≠ [])
    (hmax : ∀ part ∈ parts, part.length ≤ (p.dir d).max_frame_size ∧ part.length < 2^24)
    (hcap : acc.length + parts.flatten.length ≤ p.config.max_header_block_bytes)
    (hr : (p.closeBlock d).completeBlock d id (acc ++ parts.flatten) end_stream = (r, .ok ())) :
    (reader d).run (p.setBuf d (writeParts id end_stream first parts ++ rest)) =
      (reader d).run (r.setBuf d rest) := by
  induction parts generalizing p acc first with
  | nil => exact absurd rfl hps
  | cons part parts ih =>
    obtain ⟨hpd, hpr, -, -⟩ := partFlags_spec first parts.isEmpty end_stream
    obtain ⟨hlen, hln'⟩ := hmax part mem_cons_self
    have hkn : (if first then 0x1 else 0x9 : UInt8) = 0x1 ∨
        (if first then 0x1 else 0x9 : UInt8) = 0x9 := by
      cases first <;> simp
    rw [flatten_cons, length_append] at hcap
    rw [flatten_cons, ← append_assoc] at hr
    have hhn := handleFrame_part part parts.isEmpty hbl hacc (by omega)
    rw [writeParts, append_assoc]
    cases parts with
    | nil =>
      rw [flatten_nil, append_nil] at hr
      rw [hr] at hhn
      exact run_frame hsn hkn hpd hpr hid hlen hln' hhn
    | cons part' parts =>
      rw [run_frame hsn hkn hpd hpr hid hlen hln' hhn]
      have hcn : ∀ g, (p.modifyDir d g).config = p.config := fun g => by cases d <;> rfl
      refine ih (by cases d <;> exact hsn) (by rw [dir_modifyDir_self]; rfl)
        (absurd · Bool.false_ne_true) (by simp) (fun x hx => ?_) ?_ ?_
      · rw [dir_modifyDir_self]
        exact hmax x (mem_cons_of_mem _ hx)
      · rw [hcn, length_append]
        omega
      · rw [← hr]
        cases d <;> rfl

end Frames

end Http2Parser

/-! ## Blocks one after another -/

/-- A field block that is to be sent. -/
structure Sent where
  stream_id : ℕ
  fields : List Field
  end_stream : Bool
  /-- The frame size that the peer has set. -/
  max_frame_size : ℕ

namespace Sent

/-- What a parser should report of the block. -/
def events (b : Sent) : List Http2Event :=
  .head ⟨b.stream_id, .initiator, b.fields, b.end_stream⟩ ::
    if b.end_stream then [.end_ b.stream_id .initiator] else []

/-- Encode and frame blocks, one after another, with one encoder. -/
def reemit (e : HpackEncoder) : List Sent → Except Http2Error Bytes
  | [] => .ok []
  | b :: blocks =>
    match e.encode b.fields with
    | (_, .error err) => .error err
    | (e, .ok block) => do
      let frames ← writeHeaders b.stream_id block b.end_stream b.max_frame_size
      let rest ← reemit e blocks
      return frames ++ rest

open Http2Parser

/-- What holds between the blocks: those that were sent have been reported. -/
structure Between (e : HpackEncoder) (sent : List Sent) (p : Http2Parser) : Prop where
  config : p.config = .default
  ready : e.Ready p.request.hpack.table
  partial_block : p.request.partial_block = none
  preface : p.request.preface = .seen
  frame_size : p.request.max_frame_size = Http2Config.default.effectiveMaxFrameSize
  error : p.error = none
  streams : ∀ id, id ∈ p.streams ↔ id ∈ sent.map Sent.stream_id
  size : p.streams.size = sent.length
  events : p.events = sent.flatMap Sent.events

variable {e : HpackEncoder} {sent : List Sent} {p : Http2Parser} {b : Sent}

theorem completeBlock_of_new {block : Bytes} {hpack : HpackDecoder}
    (hdc : p.request.hpack.decode block = (hpack, .ok b.fields)) (hnew : b.stream_id ∉ p.streams)
    (hrm : p.streams.size < p.config.max_concurrent_streams) :
    p.completeBlock .initiator b.stream_id block b.end_stream =
      ({ p with
        request := { p.request with hpack := hpack }
        streams := p.streams.put b.stream_id ⟨true, false⟩
        events := p.events ++ b.events }, .ok ()) := by
  have hnn : p.streams.lookup b.stream_id = none := AList.lookup_eq_none.mpr hnew
  have hdir : p.dir .initiator = p.request := rfl
  unfold completeBlock
  rw [hdir, hdc]
  unfold reportBlock finishStream modifyDir
  dsimp only
  rw [if_neg (by omega), hnn]
  cases hend : b.end_stream with
  | true => simp [events, hend, StreamState.markHead, StreamState.default, emit, setStreams]
  | false => simp [events, hend, StreamState.markHead, StreamState.default, emit, setStreams]

/-- One block: it is encoded and framed, and the frames are read back. -/
theorem Between.block (h : Between e sent p) (hvd : HpackEncoder.Valid e.max_block_bytes b.fields)
    (hpos : 0 < b.stream_id) (hid : b.stream_id < 2^31) (hnew : b.stream_id ∉ sent.map Sent.stream_id)
    (hrm : sent.length < 256) :
    ∃ e' block frames q, e.encode b.fields = (e', .ok block) ∧
      writeHeaders b.stream_id block b.end_stream b.max_frame_size = .ok frames ∧
      (∀ rest, (reader .initiator).run (p.setBuf .initiator (frames ++ rest)) =
        (reader .initiator).run (q.setBuf .initiator rest)) ∧
      Between e' (sent ++ [b]) q ∧ e'.max_block_bytes = e.max_block_bytes := by
  obtain ⟨e', block, t', hed, hdc, hrd, hcap, hln⟩ := h.ready.encode hvd
  have hnt : b.stream_id ∉ p.streams := mt (h.streams _).mp hnew
  have hmn : p.streams.size < p.config.max_concurrent_streams := by
    rw [h.size, h.config]
    exact hrm
  have hcm := completeBlock_of_new hdc hnt hmn
  obtain ⟨q, hq⟩ : ∃ q : Http2Parser, q = { p with
    request := { p.request with hpack := ⟨t'⟩ }
    streams := p.streams.put b.stream_id ⟨true, false⟩
    events := p.events ++ b.events } := ⟨_, rfl⟩
  rw [← hq] at hcm
  obtain ⟨parts, hps⟩ : ∃ parts, parts = blockParts (clampFrameSize b.max_frame_size)
    (clampFrameSize_pos _) block := ⟨_, rfl⟩
  have hfn : parts.flatten = block := hps ▸ flatten_blockParts _ _ _
  -- a part is not longer than the block, which any frame of the parser can hold
  have hph : ∀ part ∈ parts, part.length ≤ 64 * 1024 := fun part hpt => by
    have hle := (sublist_flatten_of_mem hpt).length_le
    rw [hfn] at hle
    omega
  refine ⟨e', block, writeParts b.stream_id b.end_stream true parts, q, hed, ?_, fun rest => ?_,
    ?_, hcap⟩
  · rw [writeHeaders, if_neg (by omega), ← hps]
  · apply run_writeParts
    · exact fun haw => haw.2 h.preface
    · exact hid
    · exact h.partial_block
    · exact fun _ => rfl
    · rw [hps]
      exact blockParts_ne_nil _ _ _
    · intro part hpt
      have hle := hph part hpt
      have hsz : (p.dir .initiator).max_frame_size = 1048567 := h.frame_size
      exact ⟨by omega, by omega⟩
    · rw [hfn, h.config, length_nil, Nat.zero_add]
      exact hln
    · rw [hfn, closeBlock, modifyDir_eq_self]
      · exact hcm
      · rw [← h.partial_block]
        rfl
  · rw [hq]
    exact {
      config := h.config
      ready := hrd
      partial_block := h.partial_block
      preface := h.preface
      frame_size := h.frame_size
      error := h.error
      streams := fun id => by
        simp only [Table.lookup_put, map_append, mem_append, ← h.streams, Table.mem_iff_lookup]
        by_cases heq : id = b.stream_id
        · simp [heq]
        · simp [heq]
      size := by
        rw [Table.put, if_neg hnt, Table.size_insert_of_not_mem hnt, h.size,
          length_append, length_singleton]
      events := by
        rw [h.events, flatMap_append, flatMap_singleton] }

/-- What blocks must satisfy to be sent on one connection. -/
structure Sendable (cap : ℕ) (blocks : List Sent) : Prop where
  valid : ∀ b ∈ blocks, HpackEncoder.Valid cap b.fields
  ids : ∀ b ∈ blocks, 0 < b.stream_id ∧ b.stream_id < 2^31
  distinct : (blocks.map Sent.stream_id).Nodup
  /-- Streams of which only the client's side has ended stay live. -/
  live : blocks.length ≤ Http2Config.default.max_concurrent_streams

theorem Between.blocks (h : Between e sent p) {blocks : List Sent}
    (hbs : Sendable e.max_block_bytes (sent ++ blocks)) :
    ∃ e' bytes q, reemit e blocks = .ok bytes ∧
      (reader .initiator).run (p.setBuf .initiator bytes) =
        (reader .initiator).run (q.setBuf .initiator []) ∧ Between e' (sent ++ blocks) q := by
  induction blocks generalizing e sent p with
  | nil => exact ⟨e, [], p, rfl, rfl, by rwa [append_nil]⟩
  | cons b blocks ih =>
    have hmem : b ∈ sent ++ b :: blocks := by simp
    have hds := hbs.distinct
    rw [map_append, nodup_append] at hds
    have hlv : (sent ++ b :: blocks).length ≤ 256 := hbs.live
    rw [length_append, length_cons] at hlv
    obtain ⟨e', block, frames, q, hed, hwr, hrun, hbt, hcap⟩ :=
      h.block (hbs.valid b hmem) (hbs.ids b hmem).1 (hbs.ids b hmem).2
        (fun hold => hds.2.2 _ hold _ mem_cons_self rfl) (by omega)
    have hrs : Sendable e'.max_block_bytes ((sent ++ [b]) ++ blocks) := by
      rw [hcap, append_assoc]
      exact hbs
    obtain ⟨e'', bytes, r, hem, hrn', hbt'⟩ := ih hbt hrs
    refine ⟨e'', frames ++ bytes, r, ?_, (hrun bytes).trans hrn', ?_⟩
    · rw [reemit, hed]
      dsimp only
      rw [hwr, hem]
      rfl
    · rwa [append_assoc] at hbt'

def greeted : Http2Parser := { new with request := { new.request with preface := .seen } }

theorem run_preface (bytes : Bytes) : (reader .initiator).run (new.more .initiator (PREFACE ++ bytes)) =
    (reader .initiator).run (greeted.setBuf .initiator bytes) := by
  obtain ⟨p, hp⟩ : ∃ p, p = new.more .initiator (PREFACE ++ bytes) := ⟨_, rfl⟩
  have hbuf : p.request.buf = PREFACE ++ bytes := by
    rw [hp]
    exact nil_append _
  have hln : min (PREFACE ++ bytes).length PREFACE.length = PREFACE.length := by
    rw [length_append]
    omega
  rw [← hp]
  apply Reader.run_of_next
  show p.turn .initiator = _
  unfold turn prefaceTurn readPreface
  dsimp only
  rw [hbuf, hln, hp]
  rfl

/-- Field blocks that are encoded with one encoder and framed are read back: a new parser that is
offered the preface and the frames reports of each block one head with its fields, and the end of the
stream if it ends there. It does not fail, and nothing is left over. No frame is larger than the peer
allows. -/
theorem reemit_reads_back (settings : List HpackEncoder.Setting)
    (hcap : (HpackEncoder.configured settings).max_block_bytes ≤ 64 * 1024) (blocks : List Sent)
    (hblocks : Sendable (HpackEncoder.configured settings).max_block_bytes blocks) :
    (∃ bytes, reemit (.configured settings) blocks = .ok bytes ∧
      (new.offer .initiator (PREFACE ++ bytes)).events = blocks.flatMap Sent.events ∧
      ¬(new.offer .initiator (PREFACE ++ bytes)).isFailed ∧
      (new.offer .initiator (PREFACE ++ bytes)).buffered .initiator = 0) ∧
    ∀ b ∈ blocks, ∀ block frames,
      writeHeaders b.stream_id block b.end_stream b.max_frame_size = .ok frames →
      ∃ parts, frames = writeParts b.stream_id b.end_stream true parts ∧ parts.flatten = block ∧
        ∀ part ∈ parts, part.length ≤ clampFrameSize b.max_frame_size := by
  constructor
  · have hun := HpackEncoder.unused_configured settings
    have hsr : Between (.configured settings) [] greeted := {
      config := rfl
      ready := ⟨hun.inStep (by decide), hun.target_le_4096,
        hun.signalled.trans_le hun.max_le, hcap⟩
      partial_block := rfl
      preface := rfl
      frame_size := rfl
      error := rfl
      streams := fun id => by simp [greeted, new, withConfig]
      size := rfl
      events := rfl }
    obtain ⟨e', bytes, q, hem, hrun, hbt⟩ := hsr.blocks hblocks
    have hwt : (reader .initiator).run (q.setBuf .initiator []) = .ok (q.setBuf .initiator []) := by
      apply Reader.run_of_wait
      show turn .initiator _ = _
      have hsn : ¬(q.setBuf .initiator []).awaitsPreface .initiator :=
        fun haw => haw.2 hbt.preface
      rw [turn, if_neg hsn]
      rfl
    have hsd : Sound .default new := Sound.withConfig (by decide)
    have htk : new.Takes .initiator := ⟨by decide, by decide⟩
    have hne : PREFACE ++ bytes ≠ [] := append_ne_nil_of_left_ne_nil (by decide) _
    have hof : new.offer .initiator (PREFACE ++ bytes) = q.setBuf .initiator [] := by
      rw [offer_eq_drive hsd (by decide) htk hne, drive_eq_run, run_preface, hrun, hwt]
      rfl
    refine ⟨bytes, hem, ?_⟩
    rw [hof]
    refine ⟨hbt.events, ?_, rfl⟩
    show ¬q.error.isSome
    rw [hbt.error]
    simp
  · intro b _ block frames hfrs
    unfold writeHeaders at hfrs
    split_ifs at hfrs
    exact ⟨_, (Except.ok.inj hfrs).symm, flatten_blockParts _ _ _, length_le_of_mem_blockParts⟩

/-- Two requests, the second one with an empty field block. -/
def sampleBlocks : List Sent :=
  [⟨1, [(ascii ":method", ascii "GET"), (ascii "x-a", ascii "bb")], true, 0⟩, ⟨3, [], false, 16384⟩]

theorem reemit_reads_back_sample :
    ∃ bytes, reemit (.configured []) sampleBlocks = .ok bytes ∧
      (new.offer .initiator (PREFACE ++ bytes)).events = sampleBlocks.flatMap Sent.events := by
  obtain ⟨bytes, hem, hes, -, -⟩ := (reemit_reads_back [] (by decide) sampleBlocks {
    valid := by
      simp only [sampleBlocks, forall_mem_cons]
      exact ⟨⟨by decide, 51, by decide, by decide +kernel⟩, ⟨by decide, 8, by decide, rfl⟩, by simp⟩
    ids := by simp [sampleBlocks]
    distinct := by decide
    live := by decide }).1
  exact ⟨bytes, hem, hes⟩

end Sent

end Flowscope.Http2
