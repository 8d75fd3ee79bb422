import Flowscope.Http2.Codec

/-!
# What a sensitive field tells

A field that is classified as sensitive enters no table, and its value is always written out. An
observer of the block still sees what stands before the value: the representation, and the index of
the name or the name itself (`beforeValue`). `encodeField_sensitive` says when that is what the name
alone determines (`byName`).

It is not always so. The index that the encoder gives for a field is that of the entry with its name
and its value, if there is one, and only otherwise that of the first entry with its name. An entry
with the value, behind another with the same name, thus shows in the index
(`name_index_tells_value`).
-/

namespace Flowscope.Http2

open List Option

/-! ## Integers are written differently -/

theorem encodeGroups_injective : Function.Injective encodeGroups := by
  intro a b h
  fun_induction encodeGroups a generalizing b with
  | case1 a hmr ih =>
    obtain ⟨⟨hbt, hct⟩, -⟩ := @group_bits a
    rw [encodeGroups.eq_def b] at h
    split_ifs at h with hb
    · obtain ⟨hfr, hrs⟩ := List.cons.inj h
      have hlow : a % 128 = b % 128 := by
        rw [← hbt, hfr]
        exact (@group_bits b).1.1
      have hhg := ih hrs
      omega
    · -- the last byte of a continuation has no flag, and this one does
      obtain ⟨hfr, -⟩ := List.cons.inj h
      rw [hfr] at hct
      exact absurd ((@group_bits b).2 (by omega)).2 hct
  | case2 a hls =>
    obtain ⟨hbt, hct⟩ := (@group_bits a).2 (by omega)
    rw [encodeGroups.eq_def b] at h
    split_ifs at h with hb
    · obtain ⟨hfr, -⟩ := List.cons.inj h
      rw [hfr] at hct
      exact absurd hct (@group_bits b).1.2
    · obtain ⟨hfr, -⟩ := List.cons.inj h
      calc a = (UInt8.ofNat a).toNat &&& 0x7f := hbt.symm
        _ = (UInt8.ofNat b).toNat &&& 0x7f := by rw [hfr]
        _ = b := ((@group_bits b).2 (by omega)).1

/-- The name index of a literal that is never indexed is read off its bytes. -/
theorem encodeInt_never_injective {i j : ℕ} {more more' : Bytes} (hzr : i ≠ 0 → more = [])
    (hzr' : j ≠ 0 → more' = []) (h : encodeInt i 4 0x10 ++ more = encodeInt j 4 0x10 ++ more') :
    i = j := by
  have hbyt : ∀ x < 16, ∀ y < 16, UInt8.ofNat (0x10 ||| x) = UInt8.ofNat (0x10 ||| y) → x = y := by
    decide
  unfold encodeInt at h
  dsimp only at h
  split_ifs at h with hi hj hj
  · exact hbyt i (by omega) j (by omega) (List.cons.inj h).1
  · have := hbyt i (by omega) 15 (by norm_num) (List.cons.inj h).1
    omega
  · have := hbyt 15 (by norm_num) j (by omega) (List.cons.inj h).1
    omega
  · rw [hzr (by omega), hzr' (by omega), append_nil, append_nil] at h
    have := encodeGroups_injective (List.cons.inj h).2
    omega

/-! ## The index of a name -/

/-- The first index with a name, through the static table and then the dynamic one; 0 if there is
none. -/
def nameIndex (t : DynamicTable) (name : Bytes) : ℕ :=
  match (STATIC_TABLE ++ t.entries).findIdx? fun f => f.1 = name with
  | some i => i + 1
  | none => 0

/-- The index that the encoder found: that of the field, or else that of its name. -/
def Match.index : Match → ℕ
  | .full i => i
  | .name i => i
  | .none => 0

/-- The static table and then the dynamic one are looked through as one table. -/
theorem scanTable_append (name value : Bytes) (idx : ℕ) (name_only : Option ℕ) (l l' : List Field) :
    scanTable name value idx name_only (l ++ l') =
      match scanTable name value idx name_only l with
      | .full i => .full i
      | .name i => scanTable name value (idx + l.length) (some i) l'
      | .none => scanTable name value (idx + l.length) none l' := by
  induction l generalizing idx name_only with
  | nil => cases name_only <;> rfl
  | cons f l ih =>
    have hlen : idx + (l.length + 1) = idx + 1 + l.length := by omega
    rw [cons_append, scanTable, scanTable, length_cons, hlen]
    split_ifs
    · exact ih (idx + 1) name_only
    · rfl
    · exact ih (idx + 1) _

theorem find_eq_scanTable (t : DynamicTable) (name value : Bytes) :
    find t name value = scanTable name value 1 none (STATIC_TABLE ++ t.entries) := by
  rw [scanTable_append]
  rfl

/-- A scan gives the first entry that is the field, or else the first with its name. -/
theorem index_scanTable (name value : Bytes) (idx : ℕ) (name_only : Option ℕ) (l : List Field) :
    (scanTable name value idx name_only l).index =
      (((l.findIdx? fun f => f = (name, value)).map (idx + ·)).or
        (name_only.or ((l.findIdx? fun f => f.1 = name).map (idx + ·)))).getD 0 := by
  induction l generalizing idx name_only with
  | nil => cases name_only <;> rfl
  | cons f l ih =>
    obtain ⟨n, v⟩ := f
    have hsh : ∀ o : Option ℕ, (o.map fun i => i + 1).map (idx + ·) = o.map (idx + 1 + ·) := by
      intro o
      cases o with
      | none => rfl
      | some i => exact congrArg some (by dsimp only; omega)
    rw [scanTable, findIdx?_cons, findIdx?_cons]
    by_cases hnm : n = name
    · rw [if_neg (not_not.mpr hnm)]
      by_cases hvl : v = value
      · simp [Match.index, hnm, hvl]
      · have hfl : ¬(n, v) = (name, value) := fun h => hvl (Prod.mk.inj h).2
        rw [if_neg hvl, ih, if_neg (by simpa using hfl), if_pos (by simpa using hnm), hsh]
        -- the name stands here, so a later one does not count
        simp
    · have hfl : ¬(n, v) = (name, value) := fun h => hnm (Prod.mk.inj h).1
      rw [if_pos hnm, ih, if_neg (by simpa using hfl), if_neg (by simpa using hnm), hsh,
        hsh]

theorem nameIndex_eq (t : DynamicTable) (name : Bytes) :
    nameIndex t name =
      (((STATIC_TABLE ++ t.entries).findIdx? fun f => f.1 = name).map (1 + ·)).getD 0 := by
  unfold nameIndex
  cases (STATIC_TABLE ++ t.entries).findIdx? fun f => f.1 = name with
  | none => rfl
  | some i => exact Nat.add_comm i 1

/-- A field in the tables is the first entry with its name. -/
def Foremost (t : DynamicTable) (name value : Bytes) : Prop :=
  (name, value) ∈ t.entries →
    (STATIC_TABLE ++ t.entries).find? (fun f => f.1 = name) = some (name, value)

instance (t : DynamicTable) (name value : Bytes) : Decidable (Foremost t name value) :=
  inferInstanceAs (Decidable (_ → _))

variable {t : DynamicTable}

/-- The index that the encoder gives for a field is that of its name exactly if no entry with the
name stands before the field. -/
theorem index_find_eq_nameIndex_iff {name value : Bytes} (hst : (name, value) ∉ STATIC_TABLE) :
    (find t name value).index = nameIndex t name ↔ Foremost t name value := by
  have hmem : (name, value) ∈ STATIC_TABLE ++ t.entries ↔ (name, value) ∈ t.entries := by
    rw [mem_append]
    exact or_iff_right hst
  unfold Foremost
  rw [find_eq_scanTable, index_scanTable, nameIndex_eq, ← hmem]
  generalize STATIC_TABLE ++ t.entries = l
  cases hfu : l.findIdx? fun f => f = (name, value) with
  | none =>
    have hab : (name, value) ∉ l := by
      intro h
      have := findIdx?_eq_none_iff.mp hfu (name, value) h
      simp at this
    simp [hab]
  | some i =>
    obtain ⟨hi, hfl, hfr⟩ := findIdx?_eq_some_iff_getElem.mp hfu
    have hey : l[i] = (name, value) := by simpa using hfl
    have hin : (name, value) ∈ l := hey ▸ getElem_mem hi
    cases hnm : l.findIdx? fun f => f.1 = name with
    | none =>
      have := findIdx?_eq_none_iff.mp hnm (name, value) hin
      simp at this
    | some j =>
      obtain ⟨hj, hnd, hbf⟩ := findIdx?_eq_some_iff_getElem.mp hnm
      have hfd : l.find? (fun f => f.1 = name) = some l[j] :=
        find?_eq_some_iff_getElem.mpr ⟨hnd, j, hj, rfl, fun k hk => by simpa using hbf k hk⟩
      rw [hfd]
      simp only [map_some, some_or, getD_some, some.injEq, hin,
        forall_const]
      constructor
      · intro hij
        obtain rfl : i = j := by omega
        exact hey
      · intro hjn
        have hle : ¬j < i := fun hlt => hfr j hlt (by simpa using hjn)
        have hge : ¬i < j := fun hlt => hbf i hlt (by simp [hey])
        omega

/-- A field in the tables is given its own index. -/
theorem getElem?_index_find {name value : Bytes} (h : (name, value) ∈ STATIC_TABLE ++ t.entries) :
    (STATIC_TABLE ++ t.entries)[(find t name value).index - 1]? = some (name, value) := by
  rw [find_eq_scanTable, index_scanTable]
  generalize STATIC_TABLE ++ t.entries = l at h
  cases hfu : l.findIdx? fun f => f = (name, value) with
  | none =>
    have := findIdx?_eq_none_iff.mp hfu (name, value) h
    simp at this
  | some i =>
    obtain ⟨hi, hfl, -⟩ := findIdx?_eq_some_iff_getElem.mp hfu
    rw [map_some, some_or, getD_some, Nat.add_sub_cancel_left,
      getElem?_eq_getElem hi]
    exact congrArg some (by simpa using hfl)

/-! ## The bytes before the value -/

namespace HpackEncoder

/-- A sensitive field that the static table does not have. -/
def Secret (e : HpackEncoder) (name value : Bytes) : Prop :=
  e.sensitivity name value = .sensitive ∧ (name, value) ∉ STATIC_TABLE

/-- What a field is encoded to, up to the string of its value. -/
def beforeValue (e : HpackEncoder) (name value : Bytes) : Bytes :=
  let out := (e.encodeField name value).2
  out.take (out.length - (encodeString value e.huffman).length)

/-- What stands before the value of a sensitive field, going by the field's name alone. -/
def byName (e : HpackEncoder) (name : Bytes) : Bytes :=
  encodeInt (nameIndex e.table name) 4 0x10 ++
    if nameIndex e.table name = 0 then encodeString name e.huffman else []

variable {e : HpackEncoder}

/-- A sensitive field is a literal that is never indexed. -/
theorem Secret.encodeField_eq {name value : Bytes} (h : e.Secret name value) :
    e.encodeField name value = (e, encodeInt (find e.table name value).index 4 0x10 ++
      literalStrings (find e.table name value).index name value e.huffman) := by
  have hll : ∀ i, e.encodeLiteral name value i =
      (e, encodeInt i 4 0x10 ++ literalStrings i name value e.huffman) := by
    unfold encodeLiteral
    simp [h.1]
  obtain ⟨hfu, -⟩ := @find_spec e.table name value
  unfold encodeField
  cases hfd : find e.table name value with
  | full i =>
    obtain ⟨hpos, hi⟩ := hfu i hfd
    have hdy : ¬i ≤ STATIC_TABLE.length := by
      intro hle
      rw [getElem?_append_left (by omega)] at hi
      exact h.2 (mem_of_getElem? hi)
    dsimp only
    rw [if_neg (by simp [hdy, h.1])]
    exact hll i
  | name i => exact hll i
  | none => exact hll 0

theorem Secret.beforeValue_eq {name value : Bytes} (h : e.Secret name value) :
    e.beforeValue name value = encodeInt (find e.table name value).index 4 0x10 ++
      if (find e.table name value).index = 0 then encodeString name e.huffman else [] := by
  unfold beforeValue
  rw [h.encodeField_eq]
  unfold literalStrings
  dsimp only
  rw [← append_assoc, length_append, Nat.add_sub_cancel, take_left]

/-- The bytes before the value tell the index that the encoder found. -/
theorem Secret.beforeValue_eq_iff {name v w : Bytes} (hv : e.Secret name v)
    (hw : e.Secret name w) : e.beforeValue name v = e.beforeValue name w ↔
      (find e.table name v).index = (find e.table name w).index := by
  rw [hv.beforeValue_eq, hw.beforeValue_eq]
  constructor
  · exact encodeInt_never_injective (fun hne => if_neg hne) fun hne => if_neg hne
  · intro hix
    rw [hix]

theorem Secret.beforeValue_eq_byName_iff {name v : Bytes}
    (h : e.Secret name v) : e.beforeValue name v = e.byName name ↔ Foremost e.table name v := by
  rw [← index_find_eq_nameIndex_iff h.2, h.beforeValue_eq, byName]
  constructor
  · exact encodeInt_never_injective (fun hne => if_neg hne) fun hne => if_neg hne
  · intro hix
    rw [hix]

/-- A sensitive field leaves the encoder as it was, and its value is written out. What stands before
the value is determined by the name alone exactly if no entry with the name stands before one with
the value; and two values are told apart exactly if that fails for one of them. -/
theorem encodeField_sensitive (e : HpackEncoder) (name v w : Bytes) (hv : e.Secret name v)
    (hw : e.Secret name w) :
    (e.encodeField name v).1 = e ∧
    (e.encodeField name v).2 = e.beforeValue name v ++ encodeString v e.huffman ∧
    (e.beforeValue name v = e.byName name ↔ Foremost e.table name v) ∧
    (e.beforeValue name v = e.beforeValue name w ↔
      v = w ∨ Foremost e.table name v ∧ Foremost e.table name w) := by
  refine ⟨by rw [hv.encodeField_eq], ?_, hv.beforeValue_eq_byName_iff, ?_⟩
  · rw [hv.beforeValue_eq, hv.encodeField_eq, append_assoc]
    rfl
  rw [hv.beforeValue_eq_iff hw]
  constructor
  · intro hix
    have hiff : Foremost e.table name v ↔ Foremost e.table name w := by
      rw [← index_find_eq_nameIndex_iff hv.2, ← index_find_eq_nameIndex_iff hw.2, hix]
    by_cases hfr : Foremost e.table name v
    · exact .inr ⟨hfr, hiff.mp hfr⟩
    · -- both fields are in the table, and at one index
      have hmem : ∀ u, ¬Foremost e.table name u → (name, u) ∈ STATIC_TABLE ++ e.table.entries :=
        fun u hu => mem_append_right _ (not_forall.mp hu).1
      have hv' := getElem?_index_find (hmem v hfr)
      have hw' := getElem?_index_find (hmem w (mt hiff.mpr hfr))
      rw [hix, hw', some.injEq, Prod.mk.injEq] at hv'
      exact .inl hv'.2.symm
  · rintro (rfl | ⟨hv', hw'⟩)
    · rfl
    · rw [(index_find_eq_nameIndex_iff hv.2).mpr hv', (index_find_eq_nameIndex_iff hw.2).mpr hw']

def keySensitivity (name _value : Bytes) : HeaderSensitivity :=
  if name = ascii "x-key" then .sensitive else .indexable

/-- An encoder that has sent the keys `a` and `b` as ordinary fields before it was told that keys are
sensitive. -/
def keyEncoder : HpackEncoder :=
  let e := (new.withHuffman .never).withSensitivity fun _ _ => .indexable
  let e := (e.encode [(ascii "x-key", ascii "a")]).1
  let e := (e.encode [(ascii "x-key", ascii "b")]).1
  e.withSensitivity keySensitivity

theorem encodeField_sensitive_keyEncoder :
    (keyEncoder.encodeField (ascii "x-key") (ascii "b")).1 = keyEncoder ∧
    (keyEncoder.encodeField (ascii "x-key") (ascii "b")).2 =
      keyEncoder.beforeValue (ascii "x-key") (ascii "b") ++ encodeString (ascii "b") .never ∧
    (keyEncoder.beforeValue (ascii "x-key") (ascii "b") = keyEncoder.byName (ascii "x-key") ↔
      Foremost keyEncoder.table (ascii "x-key") (ascii "b")) ∧
    (keyEncoder.beforeValue (ascii "x-key") (ascii "b") =
        keyEncoder.beforeValue (ascii "x-key") (ascii "c") ↔
      ascii "b" = ascii "c" ∨ Foremost keyEncoder.table (ascii "x-key") (ascii "b") ∧
        Foremost keyEncoder.table (ascii "x-key") (ascii "c")) :=
  encodeField_sensitive keyEncoder (ascii "x-key") (ascii "b") (ascii "c")
    ⟨by decide +kernel, by decide +kernel⟩ ⟨by decide +kernel, by decide +kernel⟩

/-- The key `a`, which was sent before, is told from the key `c`, which was not: the one has the
index 63, the other 62. -/
theorem name_index_tells_value :
    keyEncoder.Secret (ascii "x-key") (ascii "a") ∧ keyEncoder.Secret (ascii "x-key") (ascii "c") ∧
    keyEncoder.beforeValue (ascii "x-key") (ascii "a") = [0x1f, 48] ∧
    keyEncoder.beforeValue (ascii "x-key") (ascii "c") = [0x1f, 47] := by
  refine ⟨⟨by decide +kernel, by decide +kernel⟩, ⟨by decide +kernel, by decide +kernel⟩, ?_, ?_⟩
  · decide +kernel
  · decide +kernel

end HpackEncoder

end Flowscope.Http2
