import Flowscope.Http2.Codec

/-!
# A field block and the two tables

What a block does to the table of the encoder that produces it, and to that of a decoder that reads it.
Each end keeps as many of the newest entries as fit (`evict_spec`), so the decoder has the encoder's
entries at the same indices as long as more fits at the decoder's end (`Covers`).

A size that the peer sets may reach a decoder before the encoder: then the decoder has those of the
encoder's newest entries that fit in all sizes which the encoder has not signalled yet, whether they have
arrived or not (`Behind`). A block keeps that, and decodes to the fields that were encoded, if the
encoder's table meanwhile does not outgrow a size that is still on its way (`Behind.decode_encode`).
-/

namespace Flowscope.Http2

open List HpackDecoder

/-! ## The tables -/

/-- What entries are charged together. -/
def totalSize (l : List Field) : ℕ := (l.map fun f => entrySize f.1 f.2).sum

namespace DynamicTable

/-- The recorded size is that of the entries. -/
def Counted (t : DynamicTable) : Prop := t.size = totalSize t.entries

/-- What is left is as many of the newest entries as fit. -/
theorem evictFrom_spec (max_size : ℕ) {size : ℕ} {l : List Field} (hsz : size = totalSize l) :
    (evictFrom max_size l size).1 <:+ l ∧
      (evictFrom max_size l size).2 = totalSize (evictFrom max_size l size).1 ∧
      (evictFrom max_size l size).2 ≤ max_size ∧
      ∀ s, s <:+ l → totalSize s ≤ max_size → s <:+ (evictFrom max_size l size).1 := by
  induction l generalizing size with
  | nil =>
    obtain rfl : size = 0 := hsz
    exact ⟨suffix_rfl, rfl, Nat.zero_le _, fun s hs _ => hs⟩
  | cons oldest rest ih =>
    have hcs : totalSize (oldest :: rest) = entrySize oldest.1 oldest.2 + totalSize rest := rfl
    rw [evictFrom]
    split_ifs with hov
    · obtain ⟨hsf, hct, hft, hms⟩ :=
        @ih (size - entrySize oldest.1 oldest.2) (by omega)
      refine ⟨hsf.trans (suffix_cons _ _), hct, hft, fun s hs hss => ?_⟩
      rcases suffix_cons_iff.mp hs with rfl | hs
      · omega
      · exact hms s hs hss
    · exact ⟨suffix_rfl, hsz, by omega, fun s hs _ => hs⟩

theorem evict_spec {t : DynamicTable} (h : t.Counted) :
    t.evict.entries <+: t.entries ∧ t.evict.Counted ∧ t.evict.size ≤ t.max_size ∧
      ∀ p, p <+: t.entries → totalSize p ≤ t.max_size → p <+: t.evict.entries := by
  have hrs : ∀ l : List Field, totalSize l.reverse = totalSize l := fun l => by
    rw [totalSize, totalSize, map_reverse, sum_reverse]
  obtain ⟨hsf, hct, hft, hms⟩ :=
    evictFrom_spec t.max_size (h.trans (hrs t.entries).symm)
  refine ⟨?_, ?_, hft, fun p hp hpf => ?_⟩
  · apply reverse_suffix.mp
    rwa [evict, reverse_reverse]
  · exact hct.trans (hrs _).symm
  · apply reverse_suffix.mp
    rw [evict, reverse_reverse]
    exact hms p.reverse (reverse_suffix.mpr hp) ((hrs p).trans_le hpf)

/-- A new entry, and as many of the newest ones as fit beside it. -/
theorem insert_spec {t : DynamicTable} (h : t.Counted) {name value : Bytes}
    (hft : entrySize name value ≤ t.max_size) :
    (t.insert name value).entries <+: (name, value) :: t.entries ∧ (t.insert name value).Counted ∧
      (t.insert name value).size ≤ t.max_size ∧
      ∀ l, l <+: (name, value) :: t.entries → totalSize l ≤ t.max_size →
        l <+: (t.insert name value).entries := by
  have hcd : Counted { t with
      size := t.size + entrySize name value, entries := (name, value) :: t.entries } := by
    rw [Nat.add_comm]
    exact congrArg (_ + ·) h
  unfold insert
  rw [if_neg (by omega)]
  exact evict_spec hcd

variable (t : DynamicTable)

@[simp]
theorem max_size_evict : t.evict.max_size = t.max_size := rfl

@[simp]
theorem hard_max_size_setMaxSize (n : ℕ) : (t.setMaxSize n).hard_max_size = t.hard_max_size := rfl

@[simp]
theorem max_size_insert (name value : Bytes) : (t.insert name value).max_size = t.max_size := by
  unfold insert
  dsimp only
  split_ifs <;> rfl

@[simp]
theorem hard_max_size_insert (name value : Bytes) :
    (t.insert name value).hard_max_size = t.hard_max_size := by
  unfold insert
  dsimp only
  split_ifs <;> rfl

/-- Each entry is charged its overhead at least. -/
theorem length_le_size {t : DynamicTable} (h : t.Counted) : 32 * t.entries.length ≤ t.size := by
  rw [h]
  induction t.entries with
  | nil => simp
  | cons f l ih =>
    have : totalSize (f :: l) = entrySize f.1 f.2 + totalSize l := rfl
    rw [this, entrySize, ENTRY_OVERHEAD, length_cons]
    omega

section Limits

variable {t : DynamicTable}

/-- What fits in a new limit stays. -/
theorem newest_setMaxSize (h : t.Counted) {n : ℕ} {l : List Field} (hl : l <+: t.entries)
    (hft : totalSize l ≤ n) (hn : n ≤ t.hard_max_size) : l <+: (t.setMaxSize n).entries := by
  have hcd : Counted { t with max_size := min n t.hard_max_size } := h
  exact (evict_spec hcd).2.2.2 l hl (hft.trans (min_eq_left hn).ge)

section

variable (h : t.Counted) (n : ℕ)
include h

theorem Counted.setMaxSize : (t.setMaxSize n).Counted := by
  have hcd : Counted { t with max_size := min n t.hard_max_size } := h
  exact (evict_spec hcd).2.1

theorem setMaxSize_isPrefix : (t.setMaxSize n).entries <+: t.entries := by
  have hcd : Counted { t with max_size := min n t.hard_max_size } := h
  exact (evict_spec hcd).1

theorem size_setMaxSize_le : (t.setMaxSize n).size ≤ n := by
  have hcd : Counted { t with max_size := min n t.hard_max_size } := h
  exact (evict_spec hcd).2.2.1.trans (min_le_left _ _)

end

theorem max_size_setMaxSize {n : ℕ} (hn : n ≤ t.hard_max_size) : (t.setMaxSize n).max_size = n :=
  min_eq_left hn

theorem totalSize_le_of_isPrefix {l l' : List Field} (h : l <+: l') : totalSize l ≤ totalSize l' := by
  obtain ⟨rest, rfl⟩ := h
  simp [totalSize]

end Limits

end DynamicTable

/-! ## One field -/

/-- The sizes that the source computes from a field stay within `usize`, as those of a field in memory
do. -/
def Field.Fits (f : Field) : Prop := 32 * (f.1.length + f.2.length + 32) < 2^64

namespace HpackEncoder

open HpackDecoder

/-- The entries of the encoder's table stand at the same indices in the table `d` of a decoder. -/
structure Covers (e : HpackEncoder) (d : DynamicTable) : Prop where
  isPrefix : e.table.entries <+: d.entries
  small : e.table.entries.length < 2^62

section Covers

variable {e : HpackEncoder} {d : DynamicTable}

theorem Covers.resolve (h : e.Covers d) {i : ℕ} {f : Field} (hpos : 0 < i)
    (hi : (STATIC_TABLE ++ e.table.entries)[i - 1]? = some f) :
    resolve d i = .ok f ∧ i < 2^63 := by
  obtain ⟨older, holder⟩ := h.isPrefix
  have hbn := (List.getElem?_eq_some_iff.mp hi).1
  have hlen : i - 1 < STATIC_TABLE.length + e.table.entries.length := by
    rwa [List.length_append] at hbn
  have hst : STATIC_TABLE.length = 61 := rfl
  have hsml := h.small
  refine ⟨resolve_eq_ok hpos ?_, by omega⟩
  rw [← holder, ← List.append_assoc, List.getElem?_append_left hbn]
  exact hi

/-- What the encoder produced, `r`, is read by the decoder as the field `f`. The field has entered both
tables, or none. -/
def Represented (e : HpackEncoder) (d : DynamicTable) (r : HpackEncoder × Bytes) (f : Field) : Prop :=
  r.1 = e ∧ Represents d r.2 d (some f) ∨
  entrySize f.1 f.2 * 2 ≤ e.table.max_size ∧ r.1 = { e with table := e.table.insert f.1 f.2 } ∧
    Represents d r.2 (d.insert f.1 f.2) (some f)

/-- A literal that enters no table. -/
theorem represented_unindexed {name value : Bytes} {name_idx flags : ℕ}
    (hnm : name.length < 2^63) (hvl : value.length < 2^63) (hidx : name_idx < 2^63)
    (hfs : flags ∈ [0x10, 0x00])
    (hrv : name_idx ≠ 0 → ∃ v, resolve d name_idx = .ok (name, v)) :
    e.Represented d (e, encodeInt name_idx 4 flags ++ literalStrings name_idx name value e.huffman)
      (name, value) := by
  have hlow : flags % 2^4 = 0 := by
    simp only [mem_cons, not_mem_nil, or_false] at hfs
    omega
  obtain ⟨x, hx, more, hby, hdc⟩ :=
    decodeLiteral_encode (by norm_num) hlow hidx hnm hvl hrv e.huffman
  obtain ⟨h80, h40, h20⟩ := first_bits.2.2.2.2 flags hfs x hx
  refine .inl ⟨rfl, _, more, hby, fun tail => ?_⟩
  rw [decodeField, if_neg (not_not.mpr h80), if_neg (not_not.mpr h40), if_neg (not_not.mpr h20),
    hdc]
  rfl

theorem represented_literal {name value : Bytes} {name_idx : ℕ}
    (hft : Field.Fits (name, value)) (hidx : name_idx < 2^63)
    (hrv : name_idx ≠ 0 → ∃ v, resolve d name_idx = .ok (name, v)) :
    e.Represented d (e.encodeLiteral name value name_idx) (name, value) := by
  have hlen : 32 * (name.length + value.length + 32) < 2^64 := hft
  have hnm : name.length < 2^63 := by omega
  have hvl : value.length < 2^63 := by omega
  unfold encodeLiteral
  dsimp only
  split_ifs with hil
  · obtain ⟨x, hx, more, hby, hdc⟩ := decodeLiteral_encode (by norm_num)
      (by norm_num : 0x40 % 2^6 = 0) hidx hnm hvl hrv e.huffman
    obtain ⟨h80, h40⟩ := first_bits.2.2.1 x hx
    refine .inr ⟨hil.2, rfl, _, more, hby, fun tail => ?_⟩
    rw [decodeField, if_neg (not_not.mpr h80), if_pos h40, hdc]
    rfl
  · exact represented_unindexed hnm hvl hidx (by simp) hrv
  · exact represented_unindexed hnm hvl hidx (by simp) hrv

/-- One field, whichever representation the encoder chooses. -/
theorem Covers.represented (h : e.Covers d) {name value : Bytes} (hft : Field.Fits (name, value)) :
    e.Represented d (e.encodeField name value) (name, value) := by
  obtain ⟨hfu, hnm⟩ := @find_spec e.table name value
  unfold encodeField
  cases hfd : find e.table name value with
  | full i =>
    obtain ⟨hpos, hi⟩ := hfu i hfd
    obtain ⟨hrv, hlt⟩ := h.resolve hpos hi
    dsimp only
    split_ifs
    · exact .inl ⟨rfl, represents_indexed hlt hrv⟩
    · exact represented_literal hft hlt fun _ => ⟨value, hrv⟩
  | name i =>
    obtain ⟨hpos, v, hi⟩ := hnm i hfd
    obtain ⟨hrv, hlt⟩ := h.resolve hpos hi
    exact represented_literal hft hlt fun _ => ⟨v, hrv⟩
  | none => exact represented_literal hft (by norm_num) fun hzr => absurd rfl hzr

/-- What relates the two ends while the fields that are still to come are encoded: the decoder has the
encoder's entries, also after each of these fields. -/
structure Keeps (R : List Field → HpackEncoder → DynamicTable → Prop) : Prop where
  covers : ∀ fields e d, R fields e d → e.Covers d
  same : ∀ f fields e d, R (f :: fields) e d → (e.encodeField f.1 f.2).1 = e → R fields e d
  insert : ∀ f fields e d, R (f :: fields) e d → entrySize f.1 f.2 * 2 ≤ e.table.max_size →
    (e.encodeField f.1 f.2).1 = { e with table := e.table.insert f.1 f.2 } →
    R fields { e with table := e.table.insert f.1 f.2 } (d.insert f.1 f.2)

/-- The fields of a block are read back in order. -/
theorem Keeps.decodeFrom_encodeFields {R : List Field → HpackEncoder → DynamicTable → Prop}
    (hR : Keeps R) {fields out : List Field} (h : R fields e d) (hft : ∀ f ∈ fields, Field.Fits f)
    (hct : out.length + fields.length ≤ 256) :
    ∃ d', decodeFrom d out (e.encodeFields fields).2 = (d', .ok (out ++ fields)) ∧
      R [] (e.encodeFields fields).1 d' := by
  induction fields generalizing e d out with
  | nil =>
    refine ⟨d, ?_, h⟩
    rw [encodeFields, decodeFrom, append_nil]
  | cons f fields ih =>
    obtain ⟨name, value⟩ := f
    rw [length_cons] at hct
    have hnx : ∃ d1, Represents d (e.encodeField name value).2 d1 (some (name, value)) ∧
        R fields (e.encodeField name value).1 d1 := by
      rcases (hR.covers _ _ _ h).represented (hft _ mem_cons_self) with
        ⟨hsm, hrep⟩ | ⟨hsz, hin, hrep⟩
      · exact ⟨d, hrep, hsm.symm ▸ hR.same _ _ _ _ h hsm⟩
      · exact ⟨_, hrep, hin.symm ▸ hR.insert _ _ _ _ h hsz hin⟩
    obtain ⟨d1, hrep, h₁⟩ := hnx
    obtain ⟨d2, hdc, h₂⟩ := ih h₁ (fun f hf => hft f (mem_cons_of_mem _ hf))
      (show (out ++ [(name, value)]).length + fields.length ≤ 256 by
        rw [length_append, length_singleton]; omega)
    refine ⟨d2, ?_, h₂⟩
    rw [encodeFields]
    rw [decodeFrom_represents hrep (by unfold MAX_FIELDS_PER_BLOCK; omega)]
    rw [Option.toList_some, hdc, append_assoc, singleton_append]

end Covers

/-- What an encoder may signal to a decoder: its decoder can be told, and is allowed to obey. -/
def Allowed (hard n : ℕ) : Prop := n ≤ hard ∧ n < 2^63 + 31

/-! ## Size updates -/

open DynamicTable

section Announce

variable {e : HpackEncoder} {d t : DynamicTable}

/-- What the size updates of the encoder make of a table. -/
def announce (e : HpackEncoder) (t : DynamicTable) : DynamicTable :=
  let t := if e.min_since_signal < e.signalled_size then t.setMaxSize e.min_since_signal else t
  if e.target_size ≠ min e.min_since_signal e.signalled_size then t.setMaxSize e.target_size else t

/-- The encoder applies its size updates to its own table, and then has nothing to signal. -/
theorem emitSizeUpdates_fst (e : HpackEncoder) : e.emitSizeUpdates.1 = { e with
    table := e.announce e.table, signalled_size := e.target_size,
    min_since_signal := e.target_size } := by
  unfold emitSizeUpdates announce signalSize
  by_cases hls : e.min_since_signal < e.signalled_size
  · simp only [min_eq_left hls.le]
    split_ifs with hsm
    · rfl
    · rw [not_not.mp hsm]
  · simp only [min_eq_right (not_lt.mp hls)]
    split_ifs with hsm
    · rfl
    · rw [not_not.mp hsm]

/-- The decoder applies the size updates that it reads. -/
theorem decodeFrom_emitSizeUpdates (hmin : Allowed d.hard_max_size e.min_since_signal)
    (htr : Allowed d.hard_max_size e.target_size) (tail : Bytes) :
    decodeFrom d [] (e.emitSizeUpdates.2 ++ tail) = decodeFrom (e.announce d) [] tail := by
  have hmax : ([] : List Field).length < MAX_FIELDS_PER_BLOCK := by decide
  have hrd : ∀ (t : DynamicTable) (n : ℕ) (tail : Bytes), Allowed t.hard_max_size n →
      decodeFrom t [] (encodeInt n 5 0x20 ++ tail) = decodeFrom (t.setMaxSize n) [] tail :=
    fun t n tail hn => decodeFrom_represents (represents_sizeUpdate hn.2 hn.1) hmax
  unfold emitSizeUpdates announce signalSize
  by_cases hls : e.min_since_signal < e.signalled_size
  · simp only [min_eq_left hls.le]
    split_ifs
    · rw [append_assoc, hrd _ _ _ hmin]
      exact hrd (d.setMaxSize e.min_since_signal) _ tail htr
    · rw [append_nil, hrd _ _ _ hmin]
  · simp only [min_eq_right (not_lt.mp hls)]
    split_ifs
    · rw [nil_append, hrd _ _ _ htr]
    · rfl

@[simp]
theorem hard_max_size_announce (t : DynamicTable) :
    (e.announce t).hard_max_size = t.hard_max_size := by
  unfold announce
  split_ifs <;> rfl

/-- The limit that is announced is the one to use. -/
theorem max_size_announce (hsg : e.signalled_size = t.max_size)
    (hle : e.signalled_size ≤ t.hard_max_size) (htr : e.target_size ≤ t.hard_max_size) :
    (e.announce t).max_size = e.target_size := by
  unfold announce
  dsimp only
  split_ifs
  · exact min_eq_left htr
  · exact min_eq_left htr
  · have hmin : e.min_since_signal ≤ t.hard_max_size := by omega
    refine (min_eq_left hmin).trans ?_
    omega
  · omega

theorem counted_announce (h : t.Counted) : (e.announce t).Counted := by
  unfold announce
  split_ifs
  · exact (h.setMaxSize _).setMaxSize _
  · exact h.setMaxSize _
  · exact h.setMaxSize _
  · exact h

theorem announce_isPrefix (h : t.Counted) : (e.announce t).entries <+: t.entries := by
  unfold announce
  split_ifs
  · exact (setMaxSize_isPrefix (h.setMaxSize _) _).trans (setMaxSize_isPrefix h _)
  · exact setMaxSize_isPrefix h _
  · exact setMaxSize_isPrefix h _
  · exact prefix_rfl

/-- What fits in the least size stays. -/
theorem newest_announce (h : t.Counted) {l : List Field} (hl : l <+: t.entries)
    (hft : totalSize l ≤ e.min_since_signal) (hle : e.min_since_signal ≤ e.target_size)
    (htr : e.target_size ≤ t.hard_max_size) : l <+: (e.announce t).entries := by
  have hmin := newest_setMaxSize h hl hft (hle.trans htr)
  unfold announce
  dsimp only
  split_ifs
  · exact newest_setMaxSize (h.setMaxSize _) hmin (hft.trans hle) htr
  · exact newest_setMaxSize h hl (hft.trans hle) htr
  · exact hmin
  · exact hl

/-- The encoder keeps no more than fits in the least size. -/
theorem size_announce_le (h : t.Counted) (hft : t.size ≤ e.signalled_size) :
    (e.announce t).size ≤ e.min_since_signal := by
  have hsh : ∀ {t t' : DynamicTable}, t.Counted → t'.Counted → t'.entries <+: t.entries →
      t'.size ≤ t.size := fun ht ht' hl => by
    rw [ht, ht']
    exact totalSize_le_of_isPrefix hl
  by_cases hls : e.min_since_signal < e.signalled_size
  · have hmin := size_setMaxSize_le h e.min_since_signal
    unfold announce
    split_ifs
    · exact (hsh (h.setMaxSize _) ((h.setMaxSize _).setMaxSize _)
        (setMaxSize_isPrefix (h.setMaxSize _) _)).trans hmin
    · exact hmin
  · exact (hsh h (counted_announce h) (announce_isPrefix h)).trans (by omega)

/-- The limit of a table after the updates: the new one, unless there was nothing to signal. -/
theorem le_max_size_announce {m : ℕ} (hm : m ≤ e.target_size) (htr : e.target_size ≤ t.hard_max_size)
    (hle : e.min_since_signal ≤ e.signalled_size)
    (hold : m ≤ e.min_since_signal → m ≤ t.max_size) : m ≤ (e.announce t).max_size := by
  unfold announce
  dsimp only
  split_ifs
  · exact hm.trans (min_eq_left htr).ge
  · exact hm.trans (min_eq_left htr).ge
  · have hmin : e.min_since_signal ≤ t.hard_max_size := by omega
    exact le_trans (by omega) (min_eq_left hmin).ge
  · exact hold (by omega)

end Announce

/-! ## A decoder that is ahead of the encoder -/

/-- While a block is encoded, the sender's table never exceeds `n`. -/
def PeakLe (e : HpackEncoder) (fields : List Field) (n : ℕ) : Prop :=
  ∀ k ≤ fields.length, (e.encodeFields (fields.take k)).1.table.size ≤ n

instance (e : HpackEncoder) (fields : List Field) (n : ℕ) : Decidable (e.PeakLe fields n) :=
  inferInstanceAs (Decidable (∀ k ≤ fields.length, _))

/-- The sender `e`, which has not received the sizes `in_flight` yet, and the table `t` of an observer
that has applied them: the observer has those of the newest entries that fit in all sizes which the
sender has not signalled. -/
structure Behind (e : HpackEncoder) (in_flight : List ℕ) (t : DynamicTable) : Prop where
  newest : ∀ l, l <+: e.table.entries → (∀ n ∈ e.min_since_signal :: in_flight, totalSize l ≤ n) →
    l <+: t.entries
  room : ∀ m, (∀ n ∈ e.min_since_signal :: in_flight, m ≤ n) → m ≤ t.max_size
  counted : e.table.Counted
  counted' : t.Counted
  fits : e.table.size ≤ e.table.max_size
  signalled : e.signalled_size = e.table.max_size
  le_signalled : e.min_since_signal ≤ e.signalled_size
  le_target : e.min_since_signal ≤ e.target_size
  target_le : e.target_size ≤ e.table.hard_max_size
  signalled_le : e.signalled_size ≤ e.table.hard_max_size
  allowed : ∀ n ∈ e.target_size :: e.signalled_size :: in_flight, Allowed t.hard_max_size n

variable {e : HpackEncoder} {in_flight : List ℕ} {t : DynamicTable} {fields : List Field} {n : ℕ}
  {f : Field}

/-- A size passes the observer. -/
theorem Behind.pass (h : e.Behind in_flight t) (hn : Allowed t.hard_max_size n) :
    e.Behind (in_flight ++ [n]) (t.setMaxSize n) :=
  { h with
    newest := fun l hl hft => by
      have hold : ∀ k ∈ e.min_since_signal :: in_flight, totalSize l ≤ k :=
        fun k hk => hft k (by simp at hk ⊢; tauto)
      exact newest_setMaxSize h.counted' (h.newest l hl hold) (hft n (by simp)) hn.1
    room := fun m hm => (hm n (by simp)).trans (max_size_setMaxSize hn.1).ge
    counted' := h.counted'.setMaxSize n
    allowed := fun k hk => by
      have hk' : k ∈ e.target_size :: e.signalled_size :: in_flight ∨ k = n := by simp at hk ⊢; tauto
      rcases hk' with hk' | rfl
      · exact h.allowed k hk'
      · exact hn }

/-- The oldest size arrives at the sender. -/
theorem Behind.arrive (h : e.Behind (n :: in_flight) t) :
    (e.setPeerMaxTableSize n).Behind in_flight t := by
  have hle := h.le_signalled.trans h.signalled_le
  have hmin : (e.setPeerMaxTableSize n).min_since_signal = min e.min_since_signal n := by
    show min e.min_since_signal (min n e.table.hard_max_size) = _
    omega
  have hall : ∀ m, (∀ k ∈ (e.setPeerMaxTableSize n).min_since_signal :: in_flight, m ≤ k) →
      ∀ k ∈ e.min_since_signal :: n :: in_flight, m ≤ k := by
    intro m hm
    have hfr := hm _ mem_cons_self
    simp only [forall_mem_cons]
    exact ⟨by omega, by omega, fun k hk => hm k (mem_cons_of_mem _ hk)⟩
  exact {
    newest := fun l hl hft => h.newest l hl (hall _ hft)
    room := fun m hm => h.room m (hall m hm)
    counted := h.counted
    counted' := h.counted'
    fits := h.fits
    signalled := h.signalled
    le_signalled := (min_le_left _ _).trans h.le_signalled
    le_target := min_le_right _ _
    target_le := min_le_right _ _
    signalled_le := h.signalled_le
    allowed := fun k hk => by
      have hn := h.allowed n (by simp)
      have hk' : k = min n e.table.hard_max_size ∨ k ∈ e.signalled_size :: in_flight := by
        simpa [setPeerMaxTableSize] using hk
      rcases hk' with rfl | hk'
      · exact ⟨(min_le_left _ _).trans hn.1, (min_le_left _ _).trans_lt hn.2⟩
      · exact h.allowed k (by simp at hk' ⊢; tauto) }

/-! ## One block -/

/-- While a block is encoded: the observer has all entries of the sender, and keeps them as long as the
sender's table stays below the sizes in flight. -/
structure Within (in_flight : List ℕ) (fields : List Field) (e : HpackEncoder) (t : DynamicTable) :
    Prop where
  newest : e.table.entries <+: t.entries
  room : ∀ m ≤ e.table.max_size, (∀ n ∈ in_flight, m ≤ n) → m ≤ t.max_size
  counted : e.table.Counted
  counted' : t.Counted
  fits : e.table.size ≤ e.table.max_size
  small : e.table.max_size < 2^63 + 31
  peak : ∀ n ∈ in_flight, e.PeakLe fields n

theorem Within.covers (h : Within in_flight fields e t) : e.Covers t := by
  have hen := length_le_size h.counted
  have hft := h.fits
  have hsml := h.small
  exact ⟨h.newest, by omega⟩

theorem PeakLe.tail (h : e.PeakLe (f :: fields) n) : (e.encodeField f.1 f.2).1.PeakLe fields n :=
  fun k hk => h (k + 1) (Nat.succ_le_succ hk)

theorem Within.insert (h : Within in_flight (f :: fields) e t)
    (hsz : entrySize f.1 f.2 * 2 ≤ e.table.max_size)
    (hin : (e.encodeField f.1 f.2).1 = { e with table := e.table.insert f.1 f.2 }) :
    Within in_flight fields { e with table := e.table.insert f.1 f.2 } (t.insert f.1 f.2) := by
  have hey : entrySize f.1 f.2 ≤ e.table.max_size := by omega
  obtain ⟨hnew, hcd, hle, hms⟩ := insert_spec h.counted hey
  have hpk : ∀ n ∈ in_flight,
      PeakLe { e with table := e.table.insert f.1 f.2 } fields n := fun n hn => by
    rw [← hin]
    exact (h.peak n hn).tail
  -- what the sender keeps fits in the observer's table, with the new entry in front
  have hrm : (e.table.insert f.1 f.2).size ≤ t.max_size :=
    h.room _ hle fun n hn => hpk n hn 0 (Nat.zero_le _)
  have hfn : [f] <+: (e.table.insert f.1 f.2).entries :=
    hms [f] (cons_prefix_cons.mpr ⟨rfl, nil_prefix⟩) (by simpa [totalSize] using hey)
  have hey' : entrySize f.1 f.2 ≤ t.max_size := by
    have hsum := totalSize_le_of_isPrefix hfn
    rw [← hcd] at hsum
    simp only [totalSize, map_cons, sum_cons] at hsum
    omega
  obtain ⟨-, hcd', -, hms'⟩ := insert_spec h.counted' hey'
  refine ⟨?_, ?_, hcd, hcd', ?_, ?_, hpk⟩
  · apply hms' _ (hnew.trans (cons_prefix_cons.mpr ⟨rfl, h.newest⟩))
    rw [← hcd]
    exact hrm
  · rw [max_size_insert, max_size_insert]
    exact h.room
  · rw [max_size_insert]
    exact hle
  · rw [max_size_insert]
    exact h.small

/-- The relation that a block keeps, and what it leaves alone. -/
theorem keeps_within (in_flight : List ℕ) (e0 : HpackEncoder) (t0 : DynamicTable) :
    Keeps fun fields e t => Within in_flight fields e t ∧ e = { e0 with table := e.table } ∧
      e.table.max_size = e0.table.max_size ∧ e.table.hard_max_size = e0.table.hard_max_size ∧
      t.hard_max_size = t0.hard_max_size where
  covers _ _ _ h := h.1.covers
  same f fields e t h hsm := by
    have hpk : ∀ n ∈ in_flight, e.PeakLe fields n := fun n hn => by
      have htl := (h.1.peak n hn).tail
      rwa [hsm] at htl
    exact ⟨{ h.1 with peak := hpk }, h.2⟩
  insert f fields e t h hsz hin := by
    obtain ⟨hwn, heq, hmax, hhr, hhr'⟩ := h
    refine ⟨hwn.insert hsz hin, ?_, ?_, ?_, ?_⟩
    · rw [heq]
    · exact (max_size_insert _ _ _).trans hmax
    · exact (hard_max_size_insert _ _ _).trans hhr
    · exact (hard_max_size_insert _ _ _).trans hhr'

/-- Before the fields of a block, once the size updates are read. -/
theorem Behind.within (h : e.Behind in_flight t) (fields : List Field)
    (hpk : ∀ n ∈ in_flight, e.emitSizeUpdates.1.PeakLe fields n) :
    Within in_flight fields e.emitSizeUpdates.1 (e.announce t) := by
  have htr := h.allowed e.target_size (by simp)
  have hsz : (e.announce e.table).size ≤ e.min_since_signal :=
    size_announce_le h.counted (h.fits.trans_eq h.signalled.symm)
  have hmax : (e.announce e.table).max_size = e.target_size :=
    max_size_announce h.signalled h.signalled_le h.target_le
  have hcd : (e.announce e.table).Counted := counted_announce h.counted
  rw [emitSizeUpdates_fst] at hpk ⊢
  -- all that the sender keeps fits in every size that it has not signalled
  have hall : ∀ n ∈ e.min_since_signal :: in_flight, totalSize (e.announce e.table).entries ≤ n := by
    rw [← hcd]
    simp only [forall_mem_cons]
    exact ⟨hsz, fun n hn => hpk n hn 0 (Nat.zero_le _)⟩
  refine ⟨?_, fun m hm hfl => ?_, hcd, counted_announce h.counted', ?_, ?_, hpk⟩
  · apply newest_announce h.counted' _ (hcd ▸ hsz) h.le_target htr.1
    exact h.newest _ (announce_isPrefix h.counted) hall
  · apply le_max_size_announce (hm.trans_eq hmax) htr.1 h.le_signalled
    intro hmin
    exact h.room m (by simpa using ⟨hmin, hfl⟩)
  · exact (hsz.trans h.le_target).trans hmax.ge
  · exact hmax.trans_lt htr.2

/-- A block that the encoder produces decodes to its fields, if the sender's table meanwhile stays below
the sizes in flight. -/
theorem Behind.decode_encode (h : e.Behind in_flight t) (hft : ∀ f ∈ fields, Field.Fits f)
    (hpk : (e.encode fields).2.isOk → ∀ n ∈ in_flight, e.emitSizeUpdates.1.PeakLe fields n) :
    (∃ err, e.encode fields = (e, .error err)) ∨
    ∃ e' block t', e.encode fields = (e', .ok block) ∧
      decode ⟨t⟩ block = (⟨t'⟩, .ok fields) ∧ e'.Behind in_flight t' ∧
      e'.min_since_signal = e'.signalled_size ∧ t'.hard_max_size = t.hard_max_size ∧
      e'.table.hard_max_size = e.table.hard_max_size := by
  unfold encode at hpk ⊢
  split_ifs at hpk ⊢ with hmn
  · exact .inl ⟨_, rfl⟩
  cases hck : checkFields false 8 fields with
  | error err => exact .inl ⟨err, rfl⟩
  | ok bound =>
    rw [hck] at hpk
    dsimp only at hpk ⊢
    split_ifs at hpk ⊢ with hbig
    · exact .inl ⟨_, rfl⟩
    have hct : ([] : List Field).length + fields.length ≤ 256 := by
      unfold MAX_FIELDS_PER_BLOCK at hmn
      rw [length_nil]
      omega
    have htr := h.allowed e.target_size (by simp)
    have hsg := h.allowed e.signalled_size (by simp)
    have hmin : Allowed t.hard_max_size e.min_since_signal :=
      ⟨h.le_signalled.trans hsg.1, h.le_signalled.trans_lt hsg.2⟩
    obtain ⟨e1, he1⟩ : ∃ e1, e1 = e.emitSizeUpdates.1 := ⟨_, rfl⟩
    have hup := e.emitSizeUpdates_fst
    rw [← he1] at hup
    have hwn := h.within _ (hpk rfl)
    rw [← he1] at hwn
    obtain ⟨t', hdc, hwt', heq, hmax, hhr, hhr'⟩ :=
      (keeps_within in_flight e1 (e.announce t)).decodeFrom_encodeFields
        ⟨hwn, rfl, rfl, rfl, rfl⟩ hft hct
    have hhr2 : t'.hard_max_size = t.hard_max_size := hhr'.trans (hard_max_size_announce t)
    refine .inr ⟨_, _, t', rfl, ?_, ?_⟩
    · rw [decode, decodeFrom_emitSizeUpdates hmin htr, ← he1, hdc]
      rfl
    · -- all sizes that have arrived are signalled
      rw [← he1]
      obtain ⟨e2, he2⟩ : ∃ e2, e2 = (e1.encodeFields fields).1 := ⟨_, rfl⟩
      rw [← he2] at hwt' heq hmax hhr ⊢
      have hmn2 : e2.min_since_signal = e.target_size := by rw [heq, hup]
      have htr2 : e2.target_size = e.target_size := by rw [heq, hup]
      have hsg2 : e2.signalled_size = e.target_size := by rw [heq, hup]
      have hmx2 : e2.table.max_size = e.target_size := by
        rw [hmax, hup]
        exact max_size_announce h.signalled h.signalled_le h.target_le
      have hhr1 : e2.table.hard_max_size = e.table.hard_max_size := by
        rw [hhr, hup]
        exact hard_max_size_announce _
      exact ⟨{
        newest := fun l hl _ => hl.trans hwt'.newest
        room := fun m hm => by
          rw [hmn2, forall_mem_cons] at hm
          exact hwt'.room m (hm.1.trans hmx2.ge) hm.2
        counted := hwt'.counted
        counted' := hwt'.counted'
        fits := hwt'.fits
        signalled := hsg2.trans hmx2.symm
        le_signalled := (hmn2.trans hsg2.symm).le
        le_target := (hmn2.trans htr2.symm).le
        target_le := by rw [htr2, hhr1]; exact h.target_le
        signalled_le := by rw [hsg2, hhr1]; exact h.target_le
        allowed := fun n hn => by
          rw [htr2, hsg2] at hn
          rw [hhr2]
          exact h.allowed n (by simp at hn ⊢; tauto) },
        hmn2.trans hsg2.symm, hhr2, hhr1⟩

end HpackEncoder

end Flowscope.Http2
