import Flowscope.Http2.HpackEncode

/-!
# Field blocks are read back

What the encoder writes, the decoder reads: integers (`decodeInt_encodeInt`), strings
(`decodeString_encodeString`), and literals with the index of a name (`decodeLiteral_encode`). What
the encoder finds in its tables is at the index that it gives (`find_spec`). A block is read one
representation at a time (`Represents`, `decodeFrom_represents`).
-/

namespace Flowscope.Http2

open List UInt8 Nat

/-! ## Integers -/

theorem ofNat_and_low {n p : ℕ} (hp : p ≤ 8) :
    (ofNat n).toNat &&& (1 <<< p - 1) = n % 2^p := by
  rw [toNat_ofNat', one_shiftLeft, and_two_pow_sub_one_eq_mod,
    mod_mod_of_dvd _ (pow_dvd_pow 2 hp)]

/-- What a byte of a continuation says. -/
theorem group_bits {rest : ℕ} :
    ((ofNat ((rest &&& 0x7f) ||| 0x80)).toNat &&& 0x7f = rest % 128 ∧
      (ofNat ((rest &&& 0x7f) ||| 0x80)).toNat &&& 0x80 ≠ 0) ∧
    (rest < 128 → (ofNat rest).toNat &&& 0x7f = rest ∧
      (ofNat rest).toNat &&& 0x80 = 0) := by
  have hall : ∀ r < 128, ((r ||| 0x80) % 256 &&& 0x7f = r ∧ (r ||| 0x80) % 256 &&& 0x80 ≠ 0) ∧
      r % 256 &&& 0x7f = r ∧ r % 256 &&& 0x80 = 0 := by decide
  have hlow : rest &&& 0x7f = rest % 128 := and_two_pow_sub_one_eq_mod rest 7
  rw [hlow]
  exact ⟨(hall _ (mod_lt _ (by norm_num))).1, fun h => (hall rest h).2⟩

theorem decodeGroups_encodeGroups {value shift rest : ℕ} (hsh : shift < 63)
    (hrs : rest * 2^shift < 2^63) (hvl : value + rest * 2^shift < 2^64) (tail : Bytes) :
    decodeGroups value shift (encodeGroups rest ++ tail) =
      .ok (value + rest * 2^shift, tail) := by
  fun_induction encodeGroups rest generalizing value shift with
  | case1 rest hmr ih =>
    obtain ⟨⟨hbt, hct⟩, -⟩ := @group_bits rest
    have hhg : rest >>> 7 = rest / 128 := shiftRight_eq_div_pow rest 7
    have hsl : rest * 2^shift = (rest >>> 7) * 2^(shift + 7) + (rest % 128) * 2^shift := by
      calc rest * 2^shift = (128 * (rest / 128) + rest % 128) * 2^shift := by
            rw [div_add_mod]
        _ = (rest >>> 7) * 2^(shift + 7) + (rest % 128) * 2^shift := by
            rw [hhg]
            ring
    have hnx : shift + 7 < 63 := by
      have hpow : 2^(shift + 7) < 2^63 :=
        calc 2^(shift + 7) ≤ (rest >>> 7) * 2^(shift + 7) :=
              Nat.le_mul_of_pos_left _ (by omega)
          _ ≤ rest * 2^shift := by omega
          _ < 2^63 := hrs
      exact (Nat.pow_lt_pow_iff_right (by norm_num)).mp hpow
    rw [cons_append, decodeGroups, if_neg (by omega)]
    rw [hbt, if_neg (by omega), if_neg hct, ih hnx (by omega) (by omega)]
    congr 2
    omega
  | case2 rest hls =>
    obtain ⟨-, hbyt⟩ := @group_bits rest
    obtain ⟨hbt, hct⟩ := hbyt (by omega)
    rw [singleton_append, decodeGroups, if_neg (by omega)]
    rw [hbt, shiftLeft_eq, if_neg (by omega), if_pos hct]

/-- A continuation of more than nine groups is refused. -/
theorem decodeGroups_overflow {value rest : ℕ} (k : ℕ) (hk : k ≤ 9) (hrs : 128^(9 - k) ≤ rest)
    (tail : Bytes) :
    decodeGroups value (7 * k) (encodeGroups rest ++ tail) = .error .hpackIntegerOverflow := by
  fun_induction encodeGroups rest generalizing value k with
  | case1 rest hmr ih =>
    rw [cons_append, decodeGroups]
    by_cases hsh : 63 ≤ 7 * k
    · rw [if_pos hsh]
    dsimp only
    rw [if_neg (@group_bits rest).1.2]
    split_ifs with hbig
    · rfl
    · have hle : 128^(9 - (k + 1)) ≤ rest >>> 7 := by
        rw [shiftRight_eq_div_pow, le_div_iff_mul_le (by norm_num)]
        calc 128^(9 - (k + 1)) * 2^7 = 128^(9 - (k + 1) + 1) := (pow_succ ..).symm
          _ = 128^(9 - k) := by congr 1; omega
          _ ≤ rest := hrs
      exact ih (k + 1) (by omega) hle
  | case2 rest hls =>
    rw [singleton_append, decodeGroups]
    by_cases hsh : 63 ≤ 7 * k
    · rw [if_pos hsh]
    · -- fewer than nine groups have been read, so this is not the last one
      have hpow : 128^1 ≤ 128^(9 - k) := Nat.pow_le_pow_right (by norm_num) (by omega)
      omega

/-- The first byte of an integer, and its reading. -/
theorem decodeInt_encodeInt (value p flags : ℕ) (hp : p ≤ 8) (hfs : flags % 2^p = 0)
    (hvl : value < 2^p - 1 + 2^63) :
    ∃ x < 2^p, ∃ more, encodeInt value p flags = ofNat (flags ||| x) :: more ∧
      ∀ tail, decodeInt (ofNat (flags ||| x) :: (more ++ tail)) p = .ok (value, tail) := by
  have hpow : 2^p ≤ 2^8 := Nat.pow_le_pow_right (by norm_num) hp
  have hlow : ∀ x < 2^p, (ofNat (flags ||| x)).toNat &&& (1 <<< p - 1) = x := by
    intro x hx
    rw [ofNat_and_low hp, or_mod_two_pow, hfs, zero_or, mod_eq_of_lt hx]
  have hms : 1 <<< p - 1 = 2^p - 1 := by rw [one_shiftLeft]
  unfold encodeInt
  dsimp only
  split_ifs with hsml
  · rw [hms] at hsml
    refine ⟨value, by omega, [], rfl, fun tail => ?_⟩
    rw [decodeInt, hlow value (by omega), hms, if_pos hsml, nil_append]
  · rw [hms] at hsml ⊢
    refine ⟨2^p - 1, by omega, _, rfl, fun tail => ?_⟩
    rw [decodeInt, hlow _ (by omega), if_neg (by omega),
      decodeGroups_encodeGroups (by norm_num) (by omega) (by omega)]
    congr 2
    omega

/-- An integer that needs more than nine groups is refused. -/
theorem decodeInt_overflow (value p flags : ℕ) (hp : p ≤ 8) (hfs : flags % 2^p = 0)
    (hvl : 2^p - 1 + 2^63 ≤ value) :
    ∃ x < 2^p, ∃ more, encodeInt value p flags = ofNat (flags ||| x) :: more ∧
      ∀ tail, decodeInt (ofNat (flags ||| x) :: (more ++ tail)) p =
        .error .hpackIntegerOverflow := by
  have hms : 1 <<< p - 1 = 2^p - 1 := by rw [one_shiftLeft]
  have hlow : (ofNat (flags ||| (2^p - 1))).toNat &&& (2^p - 1) = 2^p - 1 := by
    rw [← hms, ofNat_and_low hp, or_mod_two_pow, hfs, zero_or,
      mod_eq_of_lt (by omega)]
  unfold encodeInt
  rw [hms, if_neg (by omega)]
  refine ⟨2^p - 1, by omega, _, rfl, fun tail => ?_⟩
  rw [decodeInt, hms, if_neg (by omega)]
  exact decodeGroups_overflow 0 (by norm_num) (by omega) tail

/-- The number that groups of seven bits stand for, the least significant first. -/
def groupsValue : Bytes → ℕ
  | [] => 0
  | b :: rest => b.toNat % 128 + 128 * groupsValue rest

/-- The octets of an integer with a prefix of `p` bits, and the integer: the prefix, or, after a prefix
of ones, groups of which all but the last one have the continuation bit. -/
inductive IntEncodes (p : ℕ) : Bytes → ℕ → Prop
  | short (first : UInt8) (h : first.toNat % 2^p < 2^p - 1) :
      IntEncodes p [first] (first.toNat % 2^p)
  | long (first : UInt8) (more : Bytes) (last : UInt8) (h : first.toNat % 2^p = 2^p - 1)
      (hmore : ∀ b ∈ more, 128 ≤ b.toNat) (hlast : last.toNat < 128) :
      IntEncodes p (first :: (more ++ [last])) (2^p - 1 + groupsValue (more ++ [last]))

/-- Groups that are accepted, after `k` of them, are at most nine, and the value is theirs. -/
theorem decodeGroups_value {value v k : ℕ} {buf rest : Bytes} (hk : k ≤ 9)
    (h : decodeGroups value (7 * k) buf = .ok (v, rest)) :
    ∃ more last, buf = more ++ last :: rest ∧ (∀ b ∈ more, 128 ≤ b.toNat) ∧ last.toNat < 128 ∧
      v = value + groupsValue (more ++ [last]) * 2^(7 * k) ∧ more.length + k ≤ 8 := by
  induction buf generalizing value k with
  | nil => cases h
  | cons b buf ih =>
    have hbit : ∀ n < 256, (n &&& 0x80 = 0 ↔ n < 128) := by decide +kernel
    have hlow : b.toNat &&& 0x7f = b.toNat % 128 := and_two_pow_sub_one_eq_mod b.toNat 7
    rw [decodeGroups, hlow, shiftLeft_eq] at h
    dsimp only at h
    split_ifs at h with hsh hbig hlast
    · -- the last group
      obtain ⟨rfl, rfl⟩ := Prod.mk.inj (Except.ok.inj h)
      refine ⟨[], b, rfl, by simp, (hbit _ b.toNat_lt).mp hlast, ?_, ?_⟩
      · simp [groupsValue]
      · rw [length_nil]
        omega
    · obtain ⟨more, last, rfl, hmore, hlst, rfl, hlen⟩ := ih (k := k + 1) (by omega) h
      have hge : 128 ≤ b.toNat := not_lt.mp (mt (hbit _ b.toNat_lt).mpr hlast)
      refine ⟨b :: more, last, rfl, forall_mem_cons.mpr ⟨hge, hmore⟩, hlst, ?_, ?_⟩
      · rw [cons_append, groupsValue.eq_2, mul_add, pow_add]
        ring
      · rw [length_cons]
        omega

/-- No more than ten octets of the groups are looked at. -/
theorem decodeGroups_reads {value k : ℕ} {buf : Bytes} (hk : k ≤ 9) (hlen : 10 - k ≤ buf.length)
    (x y : Bytes) : (decodeGroups value (7 * k) (buf ++ x)).map Prod.fst =
      (decodeGroups value (7 * k) (buf ++ y)).map Prod.fst := by
  induction buf generalizing value k with
  | nil =>
    rw [length_nil] at hlen
    omega
  | cons b buf ih =>
    rw [length_cons] at hlen
    rw [cons_append, cons_append, decodeGroups, decodeGroups]
    dsimp only
    split_ifs with hlast
    · rfl
    · rfl
    · rfl
    · exact ih (k := k + 1) (by omega) (by omega)

/-- Integers are read back as they were written, whatever follows. What is accepted is the encoding of
the value that is returned, and at most eleven octets decide. -/
theorem decodeInt_exact (p : ℕ) (hp : p ≤ 8) :
    (∀ value flags tail, flags % 2^p = 0 → value < 2^63 →
      decodeInt (encodeInt value p flags ++ tail) p = .ok (value, tail)) ∧
    (∀ buf v rest, decodeInt buf p = .ok (v, rest) →
      ∃ enc, buf = enc ++ rest ∧ IntEncodes p enc v ∧ enc.length ≤ 10) ∧
    ∀ buf, 11 ≤ buf.length → ∀ x y,
      (decodeInt (buf ++ x) p).map Prod.fst = (decodeInt (buf ++ y) p).map Prod.fst := by
  refine ⟨fun value flags tail hfs hvl => ?_, fun buf v rest h => ?_, fun buf hlen x y => ?_⟩
  · obtain ⟨first, -, more, henc, hdec⟩ := decodeInt_encodeInt value p flags hp hfs (by omega)
    rw [henc]
    exact hdec tail
  · cases buf with
    | nil => cases h
    | cons first buf =>
      rw [decodeInt, one_shiftLeft, and_two_pow_sub_one_eq_mod] at h
      split_ifs at h with hsml
      · obtain ⟨rfl, rfl⟩ := Prod.mk.inj (Except.ok.inj h)
        exact ⟨[first], rfl, .short first hsml, by simp⟩
      · have hone : first.toNat % 2^p = 2^p - 1 := by omega
        obtain ⟨more, last, rfl, hmore, hlst, rfl, hln⟩ := decodeGroups_value (k := 0) (by omega) h
        refine ⟨first :: (more ++ [last]), by simp, ?_, ?_⟩
        · simpa [hone] using IntEncodes.long first more last hone hmore hlst
        · simp only [length_cons, length_append, length_nil]
          omega
  · cases buf with
    | nil => cases hlen
    | cons first buf =>
      rw [length_cons] at hlen
      rw [cons_append, cons_append, decodeInt, decodeInt]
      split_ifs with hsml
      · rfl
      · exact decodeGroups_reads (k := 0) (by omega) (by omega) x y

theorem decodeInt_exact_five : decodeInt (encodeInt 1337 5 0x20 ++ [7]) 5 = .ok (1337, [7]) :=
  (decodeInt_exact 5 (by decide)).1 1337 0x20 [7] (by decide) (by decide)

/-! ## Strings and indices -/

/-- The high bits of the first byte of a representation tell which one it is. -/
theorem first_bits :
    (∀ x < 2^7, (ofNat (0x80 ||| x)).toNat &&& 0x80 ≠ 0) ∧
    (∀ x < 2^7, (ofNat (0x00 ||| x)).toNat &&& 0x80 = 0) ∧
    (∀ x < 2^6, (ofNat (0x40 ||| x)).toNat &&& 0x80 = 0 ∧
      (ofNat (0x40 ||| x)).toNat &&& 0x40 ≠ 0) ∧
    (∀ x < 2^5, (ofNat (0x20 ||| x)).toNat &&& 0x80 = 0 ∧
      (ofNat (0x20 ||| x)).toNat &&& 0x40 = 0 ∧
      (ofNat (0x20 ||| x)).toNat &&& 0x20 ≠ 0) ∧
    (∀ flags ∈ [0x10, 0x00], ∀ x < 2^4, (ofNat (flags ||| x)).toNat &&& 0x80 = 0 ∧
      (ofNat (flags ||| x)).toNat &&& 0x40 = 0 ∧
      (ofNat (flags ||| x)).toNat &&& 0x20 = 0) := by
  decide

theorem decodeString_encodeString {s : Bytes} (hs : s.length < 2^63) (policy : HuffmanPolicy)
    (tail : Bytes) : decodeString (encodeString s policy ++ tail) = .ok (s, tail) := by
  obtain ⟨h80, h00, -⟩ := first_bits
  unfold encodeString
  split_ifs with hsmr
  · obtain ⟨x, hx, more, hint, hdc⟩ := decodeInt_encodeInt (Huffman.encodedLen s) 7 0x80
      (by norm_num) (by norm_num) (by omega)
    have hlen := Huffman.length_encodeInto s
    rw [hint, cons_append, cons_append, append_assoc, decodeString, hdc, Except.ok_bind]
    dsimp only
    rw [if_neg (by rw [length_append]; omega), if_pos (h80 x hx), ← hlen, take_left,
      drop_left, Huffman.decode_encodeInto]
    rfl
  · obtain ⟨x, hx, more, hint, hdc⟩ := decodeInt_encodeInt s.length 7 0x00
      (by norm_num) (by norm_num) (by omega)
    rw [hint, cons_append, cons_append, append_assoc, decodeString, hdc, Except.ok_bind]
    dsimp only
    rw [if_neg (by rw [length_append]; omega), if_neg (not_not.mpr (h00 x hx)),
      take_left, drop_left]
    rfl

namespace HpackDecoder

/-- Indices count through the static table and then the dynamic one. -/
theorem resolve_eq_ok {t : DynamicTable} {idx : ℕ} {f : Field} (hpos : 0 < idx)
    (h : (STATIC_TABLE ++ t.entries)[idx - 1]? = some f) : resolve t idx = .ok f := by
  unfold resolve
  rw [if_neg (by omega)]
  split_ifs with hst
  · rw [getElem?_append_left (by omega)] at h
    rw [getD_eq_getElem?_getD, h, Option.getD_some]
  · rw [getElem?_append_right (by omega)] at h
    rw [show idx - STATIC_TABLE.length - 1 = idx - 1 - STATIC_TABLE.length by omega, h]

end HpackDecoder

/-- A match in one table is at the index that it gives. -/
theorem scanTable_spec {name value : Bytes} {idx : ℕ} {name_only : Option ℕ} {l : List Field} :
    (∀ i, scanTable name value idx name_only l = .full i →
      idx ≤ i ∧ l[i - idx]? = some (name, value)) ∧
    (∀ i, scanTable name value idx name_only l = .name i →
      name_only = some i ∨ idx ≤ i ∧ ∃ v, l[i - idx]? = some (name, v)) := by
  induction l generalizing idx name_only with
  | nil =>
    rw [scanTable]
    cases name_only with
    | none => exact ⟨fun i h => by simp at h, fun i h => by simp at h⟩
    | some j => simp
  | cons f rest ih =>
    obtain ⟨n, v⟩ := f
    have hnx : ∀ i g, idx + 1 ≤ i → rest[i - (idx + 1)]? = some g →
        idx ≤ i ∧ ((n, v) :: rest)[i - idx]? = some g := by
      intro i g hi hg
      refine ⟨by omega, ?_⟩
      rw [show i - idx = (i - (idx + 1)) + 1 by omega, getElem?_cons_succ]
      exact hg
    rw [scanTable]
    split_ifs with hnm hvl
    · refine ⟨fun i h => ?_, fun i h => ?_⟩
      · obtain ⟨hi, hg⟩ := ih.1 i h
        exact hnx i _ hi hg
      · rcases ih.2 i h with hnm | ⟨hi, v, hg⟩
        · exact .inl hnm
        · obtain ⟨hi', hg'⟩ := hnx i _ hi hg
          exact .inr ⟨hi', v, hg'⟩
    · refine ⟨fun i h => ?_, fun i h => by simp at h⟩
      obtain rfl : idx = i := by simpa using h
      rw [not_not.mp hnm, hvl]
      simp
    · refine ⟨fun i h => ?_, fun i h => ?_⟩
      · obtain ⟨hi, hg⟩ := ih.1 i h
        exact hnx i _ hi hg
      · rcases ih.2 i h with hnm' | ⟨hi, v, hg⟩
        · cases name_only with
          | some j => exact .inl (by simpa using hnm')
          | none =>
            obtain rfl : idx = i := by simpa using hnm'
            exact .inr ⟨le_rfl, v, by simp [not_not.mp hnm]⟩
        · obtain ⟨hi', hg'⟩ := hnx i _ hi hg
          exact .inr ⟨hi', v, hg'⟩

/-- What the encoder finds is at that index of the tables. -/
theorem find_spec {t : DynamicTable} {name value : Bytes} :
    (∀ i, find t name value = .full i →
      0 < i ∧ (STATIC_TABLE ++ t.entries)[i - 1]? = some (name, value)) ∧
    (∀ i, find t name value = .name i →
      0 < i ∧ ∃ v, (STATIC_TABLE ++ t.entries)[i - 1]? = some (name, v)) := by
  have hst : ∀ i g, 1 ≤ i → STATIC_TABLE[i - 1]? = some g →
      0 < i ∧ (STATIC_TABLE ++ t.entries)[i - 1]? = some g := by
    intro i g hi hg
    refine ⟨hi, ?_⟩
    rw [List.getElem?_append_left (List.getElem?_eq_some_iff.mp hg).1]
    exact hg
  have hdy : ∀ i g, STATIC_TABLE.length + 1 ≤ i →
      t.entries[i - (STATIC_TABLE.length + 1)]? = some g →
      0 < i ∧ (STATIC_TABLE ++ t.entries)[i - 1]? = some g := by
    intro i g hi hg
    refine ⟨by omega, ?_⟩
    rw [List.getElem?_append_right (by omega)]
    exact hg
  unfold find
  obtain ⟨hfu, hnm⟩ := @scanTable_spec name value 1 none STATIC_TABLE
  cases hsc : scanTable name value 1 none STATIC_TABLE with
  | full j =>
    refine ⟨fun i h => ?_, fun i h => by simp at h⟩
    obtain rfl : j = i := by simpa using h
    obtain ⟨hj, hg⟩ := hfu j hsc
    exact hst j _ hj hg
  | name j =>
    obtain ⟨hfu', hnm'⟩ :=
      @scanTable_spec name value (STATIC_TABLE.length + 1) (some j) t.entries
    refine ⟨fun i h => ?_, fun i h => ?_⟩
    · obtain ⟨hi, hg⟩ := hfu' i h
      exact hdy i _ hi hg
    · rcases hnm' i h with hj | ⟨hi, v, hg⟩
      · obtain rfl : j = i := by simpa using hj
        rcases hnm j hsc with hj | ⟨hj, v, hg⟩
        · simp at hj
        · obtain ⟨hj', hg'⟩ := hst j _ hj hg
          exact ⟨hj', v, hg'⟩
      · obtain ⟨hi', hg'⟩ := hdy i _ hi hg
        exact ⟨hi', v, hg'⟩
  | none =>
    obtain ⟨hfu', hnm'⟩ :=
      @scanTable_spec name value (STATIC_TABLE.length + 1) none t.entries
    refine ⟨fun i h => ?_, fun i h => ?_⟩
    · obtain ⟨hi, hg⟩ := hfu' i h
      exact hdy i _ hi hg
    · rcases hnm' i h with hj | ⟨hi, v, hg⟩
      · simp at hj
      · obtain ⟨hi', hg'⟩ := hdy i _ hi hg
        exact ⟨hi', v, hg'⟩

/-! ## One representation -/

namespace HpackDecoder

/-- At the front of a block, `bytes` are read as one representation. It gives the field `f`, and
turns the table `t` into `t'`. -/
def Represents (t : DynamicTable) (bytes : Bytes) (t' : DynamicTable) (f : Option Field) : Prop :=
  ∃ first more, bytes = first :: more ∧
    ∀ tail, decodeField t (first :: (more ++ tail)) first = .ok (t', f, tail)

variable {t : DynamicTable}

theorem represents_indexed {idx : ℕ} {f : Field} (hidx : idx < 2^63)
    (h : resolve t idx = .ok f) : Represents t (encodeInt idx 7 0x80) t (some f) := by
  obtain ⟨x, hx, more, hint, hdc⟩ := decodeInt_encodeInt idx 7 0x80 (by norm_num) (by norm_num)
    (by omega)
  refine ⟨_, more, hint, fun tail => ?_⟩
  rw [decodeField, if_pos (first_bits.1 x hx), hdc, Except.ok_bind]
  dsimp only
  rw [h]
  rfl

theorem represents_sizeUpdate {n : ℕ} (hn : n < 2^63 + 31)
    (hhr : n ≤ t.hard_max_size) : Represents t (encodeInt n 5 0x20) (t.setMaxSize n) none := by
  obtain ⟨x, hx, more, hint, hdc⟩ := decodeInt_encodeInt n 5 0x20 (by norm_num) (by norm_num)
    (by omega)
  obtain ⟨h80, h40, h20⟩ := first_bits.2.2.2.1 x hx
  refine ⟨_, more, hint, fun tail => ?_⟩
  rw [decodeField, if_neg (not_not.mpr h80), if_neg (not_not.mpr h40), if_pos h20, hdc,
    Except.ok_bind]
  dsimp only
  rw [if_neg (by omega)]
  rfl

/-- A literal is read back, with any of the prefixes that it may have. -/
theorem decodeLiteral_encode {p flags name_idx : ℕ} {name value : Bytes}
    (hp : p ≤ 8) (hfs : flags % 2^p = 0) (hidx : name_idx < 2^63) (hnm : name.length < 2^63)
    (hvl : value.length < 2^63)
    (hrv : name_idx ≠ 0 → ∃ v, resolve t name_idx = .ok (name, v)) (policy : HuffmanPolicy) :
    ∃ x < 2^p, ∃ more,
      encodeInt name_idx p flags ++ literalStrings name_idx name value policy =
        ofNat (flags ||| x) :: more ∧
      ∀ tail, decodeLiteral t (ofNat (flags ||| x) :: (more ++ tail)) p =
        .ok ((name, value), tail) := by
  obtain ⟨x, hx, more, hint, hdc⟩ := decodeInt_encodeInt name_idx p flags hp hfs (by omega)
  refine ⟨x, hx, more ++ literalStrings name_idx name value policy, ?_, fun tail => ?_⟩
  · rw [hint, cons_append]
  have hdm : decodeName t name_idx (literalStrings name_idx name value policy ++ tail) =
      .ok (name, encodeString value policy ++ tail) := by
    unfold decodeName literalStrings
    split_ifs with hzr
    · rw [append_assoc, decodeString_encodeString hnm]
    · obtain ⟨v, hv⟩ := hrv hzr
      rw [hv]
      rfl
  rw [decodeLiteral, append_assoc, hdc, Except.ok_bind]
  dsimp only
  rw [hdm, Except.ok_bind]
  rw [decodeString_encodeString hvl]
  rfl

variable {out : List Field}

theorem decodeFrom_of_error {first : UInt8} {tail : Bytes}
    {err : Http2Error} (hout : out.length < MAX_FIELDS_PER_BLOCK)
    (h : decodeField t (first :: tail) first = .error err) :
    decodeFrom t out (first :: tail) = (t, .error err) := by
  rw [decodeFrom, if_neg (by omega)]
  split
  · next e heq =>
    rw [h] at heq
    cases heq
    rfl
  · next heq =>
    rw [h] at heq
    cases heq

theorem decodeFrom_represents {t' : DynamicTable} {bytes tail : Bytes} {f : Option Field}
    (h : Represents t bytes t' f) (hout : out.length < MAX_FIELDS_PER_BLOCK) :
    decodeFrom t out (bytes ++ tail) = decodeFrom t' (out ++ f.toList) tail := by
  obtain ⟨first, more, rfl, hdc⟩ := h
  rw [cons_append, decodeFrom, if_neg (by omega)]
  split
  · next e heq =>
    rw [hdc] at heq
    cases heq
  · next t'' f' rest heq =>
    rw [hdc] at heq
    cases heq
    rfl

end HpackDecoder

end Flowscope.Http2
