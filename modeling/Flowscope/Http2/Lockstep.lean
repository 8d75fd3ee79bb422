import Flowscope.Http2.Blocks

/-!
# The encoder and the decoder stay in lockstep

`encoder_decoder_lockstep`: as long as the decoder is fed what the encoder produces, in order, each
block decodes to the fields that were encoded, and the encoder's dynamic table is the newest part of
the decoder's.

The two tables need not be equal. An encoder that was built with a smaller table does not say so, and
the decoder then keeps entries that the encoder has dropped. What is kept is that the encoder's
entries are a prefix of the decoder's (`Mirrors`): no size is ahead of the encoder.

A table size that needs ten groups of seven bits is the exception: the encoder announces it, and the
decoder refuses the integer (`size_update_refused`).
-/

namespace Flowscope.Http2

open List HpackDecoder

/-- The table `e` of an encoder is the newest part of the table `d` of a decoder. -/
structure DynamicTable.Mirrors (e d : DynamicTable) : Prop where
  isPrefix : e.entries <+: d.entries
  le_max : e.max_size ≤ d.max_size
  counted : e.Counted
  counted' : d.Counted
  fits : e.size ≤ e.max_size

namespace HpackEncoder

/-- The encoder is in step with a decoder whose table is `d`. -/
structure InStep (e : HpackEncoder) (d : DynamicTable) : Prop where
  mirrors : e.table.Mirrors d
  signalled : e.signalled_size = e.table.max_size
  le_signalled : e.min_since_signal ≤ e.signalled_size
  le_target : e.min_since_signal ≤ e.target_size
  target_le : e.target_size ≤ e.table.hard_max_size
  signalled_le : e.signalled_size ≤ e.table.hard_max_size
  allowed_target : Allowed d.hard_max_size e.target_size
  allowed_signalled : Allowed d.hard_max_size e.signalled_size

variable {e : HpackEncoder} {t : DynamicTable}

/-- No size is ahead of an encoder that is in step. -/
theorem InStep.behind (h : e.InStep t) : e.Behind [] t where
  newest _ hl _ := hl.trans h.mirrors.isPrefix
  room m hm := by
    have hmin := hm e.min_since_signal mem_cons_self
    have hle := h.le_signalled
    have hmax := h.mirrors.le_max
    have hsg := h.signalled
    omega
  counted := h.mirrors.counted
  counted' := h.mirrors.counted'
  fits := h.mirrors.fits
  signalled := h.signalled
  le_signalled := h.le_signalled
  le_target := h.le_target
  target_le := h.target_le
  signalled_le := h.signalled_le
  allowed := by
    simp only [forall_mem_cons, not_mem_nil, false_imp_iff, implies_true, and_true]
    exact ⟨h.allowed_target, h.allowed_signalled⟩

/-- Once all sizes are signalled, all of the encoder's entries fit. -/
theorem Behind.inStep (h : e.Behind [] t) (hmin : e.min_since_signal = e.signalled_size) :
    e.InStep t where
  mirrors := by
    have hsg := h.signalled
    have hft := h.fits
    refine ⟨h.newest _ prefix_rfl ?_, h.room _ ?_, h.counted, h.counted', h.fits⟩
    · rw [← h.counted, forall_mem_singleton]
      omega
    · rw [forall_mem_singleton]
      omega
  signalled := h.signalled
  le_signalled := h.le_signalled
  le_target := h.le_target
  target_le := h.target_le
  signalled_le := h.signalled_le
  allowed_target := h.allowed _ mem_cons_self
  allowed_signalled := h.allowed _ (mem_cons_of_mem _ mem_cons_self)

/-- A block that the encoder produces decodes to its fields. -/
theorem InStep.decode_encode (h : e.InStep t) {fields : List Field}
    (hft : ∀ f ∈ fields, Field.Fits f) :
    (∃ err, e.encode fields = (e, .error err)) ∨
    ∃ e' block t', e.encode fields = (e', .ok block) ∧
      decode ⟨t⟩ block = (⟨t'⟩, .ok fields) ∧ e'.InStep t' ∧
      t'.hard_max_size = t.hard_max_size ∧ e'.table.hard_max_size = e.table.hard_max_size := by
  rcases h.behind.decode_encode hft (by simp) with
    herr | ⟨e', block, t', heq, hdc, hbh, hmin, hhr, hhr'⟩
  · exact .inl herr
  · exact .inr ⟨e', block, t', heq, hdc, hbh.inStep hmin, hhr, hhr'⟩

/-! ## Runs -/

/-- The ways to configure an encoder. -/
inductive Setting where
  | maxTableSize (n : ℕ)
  | huffman (policy : HuffmanPolicy)
  | sensitivity (f : Bytes → Bytes → HeaderSensitivity)
  | maxBlockBytes (n : ℕ)

def configure (e : HpackEncoder) : Setting → HpackEncoder
  | .maxTableSize n => e.withMaxTableSize n
  | .huffman policy => e.withHuffman policy
  | .sensitivity f => e.withSensitivity f
  | .maxBlockBytes n => e.withMaxBlockBytes n

def configured (settings : List Setting) : HpackEncoder := settings.foldl configure new

/-- What holds of an encoder that has not been used. -/
structure Unused (e : HpackEncoder) : Prop where
  entries : e.table.entries = []
  size : e.table.size = 0
  max_le : e.table.max_size ≤ 4096
  target_le_4096 : e.target_size ≤ 4096
  signalled : e.signalled_size = e.table.max_size
  le_signalled : e.min_since_signal ≤ e.signalled_size
  le_target : e.min_since_signal ≤ e.target_size
  target_le : e.target_size ≤ e.table.hard_max_size
  signalled_le : e.signalled_size ≤ e.table.hard_max_size

theorem Unused.configure (h : e.Unused) (s : Setting) : (e.configure s).Unused := by
  cases s with
  | maxTableSize n =>
    have hsig := h.signalled
    have hmax := h.max_le
    have htr := h.target_le_4096
    have hle := h.le_signalled
    have hle' := h.le_target
    constructor <;> simp only [HpackEncoder.configure, withMaxTableSize, DynamicTable.new] <;> omega
  | huffman policy => exact ⟨h.1, h.2, h.3, h.4, h.5, h.6, h.7, h.8, h.9⟩
  | sensitivity f => exact ⟨h.1, h.2, h.3, h.4, h.5, h.6, h.7, h.8, h.9⟩
  | maxBlockBytes n => exact ⟨h.1, h.2, h.3, h.4, h.5, h.6, h.7, h.8, h.9⟩

theorem unused_configured (settings : List Setting) : (configured settings).Unused := by
  have hnew : new.Unused := by constructor <;> decide
  unfold configured
  induction settings using reverseRecOn with
  | nil => exact hnew
  | append_singleton settings s ih =>
    rw [foldl_append]
    exact ih.configure s

theorem Unused.inStep (h : e.Unused) {hard : ℕ} (hhr : 4096 ≤ hard) :
    e.InStep (HpackDecoder.new 4096 hard).table := by
  have hmax : (HpackDecoder.new 4096 hard).table.max_size = 4096 := min_eq_left hhr
  have hcd : e.table.Counted := by rw [DynamicTable.Counted, h.entries, h.size]; rfl
  have hbn := h.max_le
  have htr := h.target_le_4096
  have hsg := h.signalled
  have hsz := h.size
  exact {
    mirrors := ⟨by rw [h.entries]; exact nil_prefix, by omega, hcd, rfl, by omega⟩
    signalled := hsg
    le_signalled := h.le_signalled
    le_target := h.le_target
    target_le := h.target_le
    signalled_le := h.signalled_le
    allowed_target := ⟨htr.trans hhr, by omega⟩
    allowed_signalled := ⟨by show _ ≤ hard; omega, by omega⟩ }

end HpackEncoder

/-- An encoder and the decoder that reads its blocks. -/
structure Link where
  encoder : HpackEncoder
  decoder : HpackDecoder

/-- What is done with the encoder. -/
inductive Action where
  | encode (fields : List Field) (fits : ∀ f ∈ fields, Field.Fits f)
  | setPeerMaxTableSize (n : ℕ)

namespace Link

/-- One action. A block, if one is produced, is decoded: the fields encoded, and what they are
decoded to. -/
def act (l : Link) : Action → Link × List (List Field × Except Http2Error (List Field))
  | .encode fields _ =>
    match l.encoder.encode fields with
    | (e, .error _) => ({ l with encoder := e }, [])
    | (e, .ok block) =>
      let (d, decoded) := l.decoder.decode block
      (⟨e, d⟩, [(fields, decoded)])
  | .setPeerMaxTableSize n => ({ l with encoder := l.encoder.setPeerMaxTableSize n }, [])

/-- Actions one after another, and all that was decoded. -/
def run (l : Link) : List Action → Link × List (List Field × Except Http2Error (List Field))
  | [] => (l, [])
  | a :: actions =>
    let (l, decoded) := l.act a
    let (l, decoded') := l.run actions
    (l, decoded ++ decoded')

/-- The two ends are in step. -/
def InStep (l : Link) : Prop := l.encoder.InStep l.decoder.table

theorem InStep.act {l : Link} (h : l.InStep) (a : Action)
    (hsz : ∀ n, a = .setPeerMaxTableSize n → HpackEncoder.Allowed
      l.decoder.table.hard_max_size (min n l.encoder.table.hard_max_size)) :
    (l.act a).1.InStep ∧ (∀ r ∈ (l.act a).2, r.2 = .ok r.1) ∧
      (l.act a).1.decoder.table.hard_max_size = l.decoder.table.hard_max_size ∧
      (l.act a).1.encoder.table.hard_max_size = l.encoder.table.hard_max_size := by
  cases a with
  | encode fields hft =>
    rcases HpackEncoder.InStep.decode_encode h hft with
      ⟨err, heq⟩ | ⟨e', block, d', heq, hdc, hstp, hhr, hhr'⟩
    · rw [Link.act, heq]
      exact ⟨h, by simp, rfl, rfl⟩
    · rw [Link.act, heq]
      dsimp only
      rw [hdc]
      exact ⟨hstp, by simp, hhr, hhr'⟩
  | setPeerMaxTableSize n =>
    refine ⟨?_, by simp [Link.act], rfl, rfl⟩
    exact { h with
      le_signalled := (min_le_left _ _).trans h.le_signalled
      le_target := min_le_right _ _
      target_le := min_le_right _ _
      allowed_target := hsz n rfl }

theorem InStep.run {l : Link} (h : l.InStep) (actions : List Action)
    (hss : ∀ n, .setPeerMaxTableSize n ∈ actions → HpackEncoder.Allowed
      l.decoder.table.hard_max_size (min n l.encoder.table.hard_max_size)) :
    (l.run actions).1.InStep ∧ ∀ r ∈ (l.run actions).2, r.2 = .ok r.1 := by
  induction actions generalizing l with
  | nil => exact ⟨h, by simp [Link.run]⟩
  | cons a actions ih =>
    obtain ⟨hstp, hdd, hhr, hhr'⟩ := h.act a fun n ha => hss n (ha ▸ mem_cons_self)
    obtain ⟨hstp', hdd'⟩ := ih hstp fun n hn => by
      rw [hhr, hhr']
      exact hss n (mem_cons_of_mem _ hn)
    refine ⟨hstp', fun r hr => ?_⟩
    rcases mem_append.mp hr with hr | hr
    · exact hdd r hr
    · exact hdd' r hr

/-- Whatever the encoder's settings, and whatever is encoded, refused, or set by the peer: each block
decodes to the fields that were encoded, and the encoder's table is the newest part of the decoder's.
The sizes that the encoder comes to signal must be allowed at the decoder, and below `2^63 + 31`, the
least integer that a decoder refuses. -/
theorem encoder_decoder_lockstep (settings : List HpackEncoder.Setting) {hard : ℕ}
    (hhard : 4096 ≤ hard) (actions : List Action)
    (hsizes : ∀ n, .setPeerMaxTableSize n ∈ actions → HpackEncoder.Allowed hard
      (min n (HpackEncoder.configured settings).table.hard_max_size)) :
    (∀ r ∈ (run ⟨.configured settings, .new 4096 hard⟩ actions).2, r.2 = .ok r.1) ∧
      (run ⟨.configured settings, .new 4096 hard⟩ actions).1.encoder.table.entries <+:
        (run ⟨.configured settings, .new 4096 hard⟩ actions).1.decoder.table.entries := by
  have hstp : InStep ⟨.configured settings, .new 4096 hard⟩ :=
    (HpackEncoder.unused_configured settings).inStep hhard
  obtain ⟨hrun, hdd⟩ := hstp.run actions hsizes
  exact ⟨hdd, hrun.mirrors.isPrefix⟩

def sampleField : Field := ([120, 45, 97], [98, 98])

theorem sampleField_fits : ∀ f ∈ [sampleField], Field.Fits f := by
  simp [Field.Fits, sampleField]

/-- A field twice, the second time after the peer has reduced the table. -/
def sampleActions : List Action :=
  [.encode [sampleField] sampleField_fits, .setPeerMaxTableSize 100,
    .encode [sampleField] sampleField_fits]

theorem encoder_decoder_lockstep_sample :
    (∀ r ∈ (run ⟨.configured [.maxTableSize 256], .new 4096 4096⟩ sampleActions).2, r.2 = .ok r.1) ∧
      (run ⟨.configured [.maxTableSize 256], .new 4096 4096⟩ sampleActions).1.encoder.table.entries
        <+: (run ⟨.configured [.maxTableSize 256], .new 4096 4096⟩
          sampleActions).1.decoder.table.entries :=
  encoder_decoder_lockstep [.maxTableSize 256] le_rfl sampleActions (by
    intro n hn
    obtain rfl : n = 100 := by simpa [sampleActions] using hn
    exact ⟨by decide, by decide⟩)

/-- An empty block carries the size update that is due, and nothing else. -/
theorem encode_nil {e : HpackEncoder} (hmin : e.min_since_signal = e.signalled_size)
    (htr : e.target_size ≠ e.signalled_size) (hby : 8 ≤ e.max_block_bytes) :
    (e.encode []).2 = .ok (encodeInt e.target_size 5 0x20) := by
  simp [HpackEncoder.encode, HpackEncoder.checkFields, HpackEncoder.emitSizeUpdates,
    HpackEncoder.signalSize, HpackEncoder.encodeFields, hmin, htr, hby.not_gt]

/-- A size update that needs ten groups of seven bits is refused. -/
theorem decode_sizeUpdate_refused {n : ℕ} (hn : 2^63 + 31 ≤ n) (d : HpackDecoder) :
    (d.decode (encodeInt n 5 0x20)).2 = .error .hpackIntegerOverflow := by
  obtain ⟨x, hx, more, hint, hdc⟩ := decodeInt_overflow n 5 0x20 (by norm_num) (by norm_num)
    (by omega)
  obtain ⟨h80, h40, h20⟩ := first_bits.2.2.2.1 x hx
  have hfl : decodeField d.table (UInt8.ofNat (0x20 ||| x) :: more)
      (UInt8.ofNat (0x20 ||| x)) = .error .hpackIntegerOverflow := by
    have hdc' := hdc []
    rw [append_nil] at hdc'
    rw [decodeField, if_neg (not_not.mpr h80), if_neg (not_not.mpr h40), if_pos h20,
      hdc']
    rfl
  rw [decode, hint, decodeFrom_of_error (by decide) hfl]

/-- The block that announces a table of `2^64 - 1` bytes is refused by a decoder that would allow
it. -/
theorem size_update_refused :
    (run ⟨.configured [.maxTableSize (2^64 - 1)], .new 4096 (2^64 - 1)⟩
      [.setPeerMaxTableSize (2^64 - 1), .encode [] (by simp)]).2 =
        [([], .error .hpackIntegerOverflow)] := by
  obtain ⟨e, he⟩ : ∃ e, e = (HpackEncoder.configured
    [.maxTableSize (2^64 - 1)]).setPeerMaxTableSize (2^64 - 1) := ⟨_, rfl⟩
  have htr : e.target_size = 2^64 - 1 := by rw [he]; decide
  have hed := encode_nil (e := e) (by rw [he]; decide) (by rw [he]; decide) (by rw [he]; decide)
  obtain ⟨⟨e', block⟩, hbl⟩ : ∃ r, r = e.encode [] := ⟨_, rfl⟩
  rw [← hbl, htr] at hed
  obtain rfl : block = .ok (encodeInt (2^64 - 1) 5 0x20) := hed
  have hdc := decode_sizeUpdate_refused (n := 2^64 - 1) (by norm_num) (.new 4096 (2^64 - 1))
  simp only [run, act, ← he, ← hbl, hdc, nil_append, append_nil]

end Link

end Flowscope.Http2
