import Flowscope.Lib.Bytes
import Mathlib.Data.List.Forall2
import Mathlib.Data.Vector.Basic

/-!
# MAC addresses

`MacAddr` (`src/mac_addr.rs`) is written as six groups of two hexadecimal digits with colons between
them, and read from that form and from the one with dashes. A group is read by `u8::from_str_radix`,
which takes a plus sign in front of the digits, so that `+a` is read as a group (`fromStr_plus`). These
strings are the only ones that are read and do not have one of the two forms (`fromStr_iff`).
-/

namespace Flowscope

/-- An Ethernet address. -/
abbrev MacAddr := List.Vector UInt8 6

namespace MacAddr

open List

/-- `u8::from_str_radix` in base 16: digits, after an optional plus sign. -/
def fromStrRadix (s : List UInt8) : Option UInt8 :=
  let digits := if s.head? = some 43 then s.tail else s
  if digits = [] then none
  else (digits.mapM hexDigit).bind fun ds =>
    let n := ds.foldl (fun n d => n * 16 + d) 0
    if n < 256 then some (UInt8.ofNat n) else none

/-- A chunk of two bytes for each slot, and none left over. -/
def slots : (n : ℕ) → List (List UInt8) → Option (List.Vector UInt8 n)
  | 0, [] => some .nil
  | 0, _ :: _ => none
  | _ + 1, [] => none
  | n + 1, chunk :: rest =>
    if chunk.length ≠ 2 then none
    else (fromStrRadix chunk).bind fun b => (slots n rest).map (b ::ᵥ ·)

/-- The third byte tells the separator, and the slots are filled from the chunks between separators. -/
def fromStr (s : List UInt8) : Option MacAddr :=
  if s[2]? = some 58 then slots 6 (s.splitOn 58)
  else if s[2]? = some 45 then slots 6 (s.splitOn 45)
  else none

/-- A hexadecimal digit, in lower case. -/
def hexChar (n : ℕ) : UInt8 := UInt8.ofNat (if n < 10 then 48 + n else 87 + n)

/-- Two digits for each byte, and colons between them. -/
def display (m : MacAddr) : List UInt8 :=
  [58].intercalate (m.toList.map fun b => [hexChar (b.toNat / 16), hexChar (b.toNat % 16)])

/-- The first byte of a group as `fromStrRadix` takes it: a plus sign counts as no digit at all. -/
def leadDigit (b : UInt8) : Option ℕ := if b = 43 then some 0 else hexDigit b

/-- Two bytes, of which `lead` reads the first, and the byte that they stand for. -/
def IsGroup (lead : UInt8 → Option ℕ) (chunk : List UInt8) (b : UInt8) : Prop :=
  ∃ hi lo x y, chunk = [hi, lo] ∧ lead hi = some x ∧ hexDigit lo = some y ∧ b.toNat = x * 16 + y

/-- Six groups, separated throughout by colons or throughout by dashes. The documented form is the one
with `hexDigit` as `lead`. -/
def Written (lead : UInt8 → Option ℕ) (s : List UInt8) (m : MacAddr) : Prop :=
  ∃ sep ∈ [58, 45], ∃ chunks, s = [sep].intercalate chunks ∧ Forall₂ (IsGroup lead) chunks m.toList

variable {lead lead' : UInt8 → Option ℕ} {s : List UInt8} {m : MacAddr}

/-- Two bytes are read as the group that they are. -/
theorem fromStrRadix_eq_some {hi lo b : UInt8} :
    fromStrRadix [hi, lo] = some b ↔ IsGroup leadDigit [hi, lo] b := by
  have hds : fromStrRadix [hi, lo] = (leadDigit hi).bind fun x => (hexDigit lo).bind fun y =>
      if x * 16 + y < 256 then some (UInt8.ofNat (x * 16 + y)) else none := by
    by_cases h : hi = 43
    · cases hy : hexDigit lo <;> simp [fromStrRadix, leadDigit, h, hy]
    · cases hx : hexDigit hi <;> cases hy : hexDigit lo <;> simp [fromStrRadix, leadDigit, h, hx, hy]
  rw [hds]
  constructor
  · intro hb
    obtain ⟨x, hx, hb⟩ := Option.bind_eq_some_iff.mp hb
    obtain ⟨y, hy, hb⟩ := Option.bind_eq_some_iff.mp hb
    split_ifs at hb with hlt
    obtain rfl := Option.some.inj hb
    exact ⟨hi, lo, x, y, rfl, hx, hy, UInt8.toNat_ofNat_of_lt' hlt⟩
  · rintro ⟨hi', lo', x, y, heq, hx, hy, hb⟩
    cases heq
    have hlt := b.toNat_lt
    rw [hx, hy, Option.bind_some, Option.bind_some, ← hb, if_pos hlt, UInt8.ofNat_toNat]

/-- The slots are filled with what the chunks stand for. -/
theorem slots_eq_some {n : ℕ} {chunks : List (List UInt8)} {v : List.Vector UInt8 n} :
    slots n chunks = some v ↔ Forall₂ (IsGroup leadDigit) chunks v.toList := by
  induction n generalizing chunks with
  | zero =>
    obtain rfl := v.eq_nil
    cases chunks <;> simp [slots]
  | succ n ih =>
    obtain ⟨b, v, rfl⟩ := v.exists_eq_cons
    cases chunks with
    | nil => simp [slots]
    | cons chunk rest =>
      rw [List.Vector.toList_cons, forall₂_cons, slots, ← ih]
      split_ifs with hlen
      · have hno : ¬IsGroup leadDigit chunk b := by
          rintro ⟨hi, lo, x, y, rfl, -⟩
          exact hlen rfl
        simp [hno]
      · obtain ⟨hi, lo, rfl⟩ := length_eq_two.mp (not_not.mp hlen)
        rw [← fromStrRadix_eq_some]
        cases hb : fromStrRadix [hi, lo] <;> cases hv : slots n rest <;>
          simp [List.Vector.eq_cons_iff]

/-- The form can be told from the third byte, and the groups from each other. -/
theorem Written.parts (h : Written leadDigit s m) :
    ∃ sep ∈ [58, 45], s[2]? = some sep ∧ Forall₂ (IsGroup leadDigit) (s.splitOn sep) m.toList := by
  obtain ⟨sep, hsep, chunks, rfl, hgr⟩ := h
  have hno : ∀ chunk ∈ chunks, sep ∉ chunk := by
    intro chunk hc hmem
    have hall : ∀ chunk ∈ chunks, ∃ b, IsGroup leadDigit chunk b :=
      ((forall₂_and_left _ _).mp (hgr.imp fun _ b h => ⟨⟨b, h⟩, h⟩)).1
    obtain ⟨b, hi, lo, x, y, rfl, hx, hy, -⟩ := hall chunk hc
    rcases mem_pair.mp hsep with rfl | rfl <;> rcases mem_pair.mp hmem with rfl | rfl
    all_goals first | cases hx | cases hy
  refine ⟨sep, hsep, ?_, ?_⟩
  · obtain ⟨b, v, rfl⟩ := m.exists_eq_cons
    obtain ⟨b', v, rfl⟩ := v.exists_eq_cons
    cases hgr with
    | cons hfst hrest =>
      obtain ⟨hi, lo, x, y, rfl, -⟩ := hfst
      cases hrest with
      | cons hsnd hrest => rw [intercalate_cons_cons]; rfl
  · rwa [splitOn_intercalate sep hno]
    rintro rfl
    cases m with
    | mk l hl =>
      cases hgr
      cases hl

/-- What is read: the documented form, but with a plus sign allowed in front of a group. -/
theorem fromStr_eq_some : fromStr s = some m ↔ Written leadDigit s m := by
  constructor
  · intro h
    unfold fromStr at h
    split_ifs at h
    · exact ⟨58, by simp, _, (intercalate_splitOn _).symm, slots_eq_some.mp h⟩
    · exact ⟨45, by simp, _, (intercalate_splitOn _).symm, slots_eq_some.mp h⟩
  · intro h
    obtain ⟨sep, hsep, hat, hgr⟩ := h.parts
    rcases mem_pair.mp hsep with rfl | rfl
    · rw [fromStr, if_pos hat]
      exact slots_eq_some.mpr hgr
    · rw [fromStr, if_neg (by rw [hat]; decide), if_pos hat]
      exact slots_eq_some.mpr hgr

/-- A group between separators is part of the whole. -/
theorem subset_intercalate {sep : UInt8} {chunk : List UInt8} {chunks : List (List UInt8)}
    (h : chunk ∈ chunks) : chunk ⊆ [sep].intercalate chunks := by
  induction chunks with
  | nil => cases h
  | cons c chunks ih =>
    cases chunks with
    | nil =>
      rw [mem_singleton.mp h, intercalate_singleton]
      exact Subset.refl c
    | cons c' chunks =>
      rw [intercalate_cons_cons]
      rcases mem_cons.mp h with rfl | h
      · exact subset_append_of_subset_left _ (subset_append_left ..)
      · exact subset_append_of_subset_right _ (ih h)

/-- Only the bytes that begin a group are read by `lead`. -/
theorem Written.mono (h : Written lead s m)
    (hlead : ∀ hi ∈ s, ∀ x, lead hi = some x → lead' hi = some x) : Written lead' s m := by
  obtain ⟨sep, hsep, chunks, rfl, hgr⟩ := h
  have hmem := (forall₂_and_left chunks m.toList).mpr ⟨fun _ hc => hc, hgr⟩
  refine ⟨sep, hsep, chunks, rfl, hmem.imp ?_⟩
  rintro chunk b ⟨hc, hi, lo, x, y, rfl, hx, hrest⟩
  exact ⟨hi, lo, x, y, rfl, hlead hi (subset_intercalate hc mem_cons_self) x hx, hrest⟩

/-- The documented form has no plus sign. -/
theorem Written.not_plus (h : Written hexDigit s m) : 43 ∉ s := by
  obtain ⟨sep, hsep, chunks, rfl, hgr⟩ := h
  generalize m.toList = bytes at hgr
  induction hgr with
  | nil => exact not_mem_nil
  | @cons chunk b chunks _ hfst hrest ih =>
    have hno : 43 ∉ chunk := by
      obtain ⟨hi, lo, x, y, rfl, hx, hy, -⟩ := hfst
      intro hplus
      rcases mem_pair.mp hplus with rfl | rfl
      · cases hx
      · cases hy
    cases chunks with
    | nil => rwa [intercalate_singleton]
    | cons c' chunks =>
      have hsep : 43 ∉ [sep] := by rcases mem_pair.mp hsep with rfl | rfl <;> decide
      rw [intercalate_cons_cons, mem_append, mem_append, not_or, not_or]
      exact ⟨⟨hno, hsep⟩, ih⟩

/-- The displayed form is the one with colons. -/
theorem written_display (m : MacAddr) : Written hexDigit m.display m := by
  have hhex : ∀ n < 16, hexDigit (hexChar n) = some n := by decide
  refine ⟨58, by simp, _, rfl, forall₂_map_left_iff.mpr (forall₂_same.mpr fun b _ => ?_)⟩
  have hlt := b.toNat_lt
  exact ⟨_, _, _, _, rfl, hhex _ (by omega), hhex _ (by omega), by omega⟩

/-- The displayed form is read back. A string is read just when it has one of the two forms, unless it
has a plus sign and is six groups of two digits or of a plus sign and a digit. -/
theorem fromStr_iff (m : MacAddr) (s : List UInt8) : fromStr m.display = some m ∧
    ((∀ m, fromStr s = some m ↔ Written hexDigit s m) ↔ ¬(43 ∈ s ∧ ∃ m, Written leadDigit s m)) := by
  have hlead : ∀ hi ≠ 43, leadDigit hi = hexDigit hi := fun hi hne => if_neg hne
  have hread : ∀ {s m}, Written hexDigit s m → fromStr s = some m := by
    intro s m h
    have hno := h.not_plus
    refine fromStr_eq_some.mpr (h.mono fun hi hmem x hx => ?_)
    rw [hlead hi (ne_of_mem_of_not_mem hmem hno), hx]
  refine ⟨hread (written_display m), fun h => ?_, fun hno m => ⟨fun h => ?_, hread⟩⟩
  · rintro ⟨hplus, m, hm⟩
    exact ((h m).mp (fromStr_eq_some.mpr hm)).not_plus hplus
  · have hm := fromStr_eq_some.mp h
    have hplus : 43 ∉ s := fun hplus => hno ⟨hplus, m, hm⟩
    refine hm.mono fun hi hmem x hx => ?_
    rw [← hlead hi (ne_of_mem_of_not_mem hmem hplus), hx]

/-- `+a:00:00:00:00:00` -/
def plusGroup : List UInt8 :=
  [43, 97, 58, 48, 48, 58, 48, 48, 58, 48, 48, 58, 48, 48, 58, 48, 48]

/-- A plus sign and a digit are read as a group. -/
theorem fromStr_plus : (fromStr plusGroup).isSome ∧ ∀ m, ¬Written hexDigit plusGroup m :=
  ⟨by decide, fun _ h => h.not_plus (by decide)⟩

end MacAddr

end Flowscope
