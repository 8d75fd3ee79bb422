import Flowscope.Segment.Store

/-!
# Pieces of a byte stream

What a map of pieces says of each offset (`byteIn`), and the property that the pieces of a store
have: they are not empty, and there is at least one offset between any two of them (`Apart`). Pieces
that are apart are determined by their bytes, and all later facts about the store are stated offset
by offset.
-/

namespace Flowscope

open OrdMap

/-- The byte at an offset. -/
def byteIn (m : OrdMap ℕ Piece) (off : ℕ) : Option UInt8 :=
  match (m.upTo off).getLast? with
  | some (s, d) => d.data[off - s]?
  | none => none

/-- The pieces are not empty, do not touch, and have room for their bytes. -/
structure Apart (m : OrdMap ℕ Piece) : Prop where
  nonempty : ∀ s d, (s, d) ∈ m → 0 < d.len
  /-- A piece ends before the next one starts, with an offset between them. -/
  apart : ∀ s d s' d', (s, d) ∈ m → (s', d') ∈ m → s < s' → s + d.len < s'
  fits : ∀ s d, (s, d) ∈ m → d.len ≤ d.capacity

namespace Apart

variable {m : OrdMap ℕ Piece}

theorem empty : Apart (empty : OrdMap ℕ Piece) :=
  ⟨fun _ _ h => absurd h (not_mem_empty _), fun _ _ _ _ h => absurd h (not_mem_empty _),
    fun _ _ h => absurd h (not_mem_empty _)⟩

variable {d : Piece} {off s : ℕ}

section

variable (h : Apart m)
include h

/-- Pieces that meet are the same piece. -/
theorem unique {s' : ℕ} {d' : Piece} (hm : (s, d) ∈ m) (hm' : (s', d') ∈ m)
    (hle : s ≤ s' + d'.len) (hle' : s' ≤ s + d.len) : s = s' ∧ d = d' := by
  rcases lt_trichotomy s s' with hlt | heq | hlt
  · have := h.apart _ _ _ _ hm hm' hlt
    omega
  · have := eq_of_mem hm hm' heq
    simp only [Prod.mk.injEq] at this
    exact this
  · have := h.apart _ _ _ _ hm' hm hlt
    omega

theorem getLast?_upTo (hm : (s, d) ∈ m) (hs : s ≤ off) (he : off < s + d.len) :
    (m.upTo off).getLast? = some (s, d) := by
  cases hls : (m.upTo off).getLast? with
  | none =>
    have := getLast?_upTo_eq_none.mp hls _ hm
    omega
  | some en =>
    obtain ⟨hm', hs', hmax⟩ := OrdMap.getLast?_upTo hls
    have hle := hmax _ hm hs
    obtain ⟨rfl, rfl⟩ := h.unique hm hm' (by omega) (by omega)
    rfl

theorem byteIn_of_mem (hm : (s, d) ∈ m) (hs : s ≤ off)
    (he : off < s + d.len) : byteIn m off = d.data[off - s]? := by
  rw [byteIn, h.getLast?_upTo hm hs he]

/-- There is a byte at the offsets of the pieces, and at no others. -/
theorem byteIn_eq_none : byteIn m off = none ↔ ∀ s d, (s, d) ∈ m → s ≤ off → s + d.len ≤ off := by
  constructor
  · intro hn s d hm hs
    by_contra he
    rw [h.byteIn_of_mem hm hs (not_le.mp he), List.getElem?_eq_none_iff] at hn
    have : d.data.length = d.len := rfl
    omega
  · intro hn
    unfold byteIn
    cases hls : (m.upTo off).getLast? with
    | none => rfl
    | some en =>
      obtain ⟨s, d⟩ := en
      obtain ⟨hm, hs, -⟩ := OrdMap.getLast?_upTo hls
      have := hn s d hm hs
      have hlen : d.data.length = d.len := rfl
      rw [List.getElem?_eq_none_iff]
      omega

theorem byteIn_ne_none : byteIn m off ≠ none ↔ ∃ s d, (s, d) ∈ m ∧ s ≤ off ∧ off < s + d.len := by
  rw [Ne, h.byteIn_eq_none]
  push Not
  rfl

/-- A byte of the map is a byte of one of its pieces. -/
theorem exists_mem_of_byteIn {b : UInt8} (hb : byteIn m off = some b) :
    ∃ s d, (s, d) ∈ m ∧ s ≤ off ∧ off < s + d.len ∧ d.data[off - s]? = some b := by
  obtain ⟨s, d, hm, hs, he⟩ := h.byteIn_ne_none.mp (by rw [hb]; exact Option.some_ne_none _)
  exact ⟨s, d, hm, hs, he, by rw [← h.byteIn_of_mem hm hs he, hb]⟩

/-- Removing a piece removes its bytes. -/
theorem erase (k : ℕ) : Apart (m.erase k) :=
  ⟨fun s d hm => h.nonempty s d (mem_erase.mp hm).1, fun s d s' d' hm hm' =>
      h.apart s d s' d' (mem_erase.mp hm).1 (mem_erase.mp hm').1,
    fun s d hm => h.fits s d (mem_erase.mp hm).1⟩

theorem byteIn_erase (hm : (s, d) ∈ m) (off : ℕ) :
    byteIn (m.erase s) off = if s ≤ off ∧ off < s + d.len then none else byteIn m off := by
  split_ifs with hoff
  · rw [(h.erase s).byteIn_eq_none]
    intro s' d' hm' hs'
    obtain ⟨hm', hne⟩ := mem_erase.mp hm'
    by_contra he
    exact hne (h.unique hm' hm (by omega) (by omega)).1
  · cases hb : byteIn m off with
    | none =>
      rw [(h.erase s).byteIn_eq_none]
      exact fun s' d' hm' hs' => h.byteIn_eq_none.mp hb s' d' (mem_erase.mp hm').1 hs'
    | some b =>
      obtain ⟨s', d', hm', hs', he', hb'⟩ := h.exists_mem_of_byteIn hb
      have hne : s' ≠ s := by
        rintro rfl
        cases eq_of_mem hm' hm rfl
        exact hoff ⟨hs', he'⟩
      rw [(h.erase s).byteIn_of_mem (mem_erase.mpr ⟨hm', hne⟩) hs' he', hb']

/-- A new piece that touches no other one. -/
theorem insert (hd : 0 < d.len) (hft : d.len ≤ d.capacity)
    (hfr : ∀ s' d', (s', d') ∈ m → s' + d'.len < s ∨ s + d.len < s') : Apart (m.insert s d) := by
  refine ⟨fun s' d' hm' => ?_, fun s1 d1 s2 d2 hm1 hm2 hlt => ?_, fun s' d' hm' => ?_⟩
  · rcases mem_insert.mp hm' with heq | ⟨hm', -⟩
    · cases heq
      exact hd
    · exact h.nonempty _ _ hm'
  · rcases mem_insert.mp hm1 with heq1 | ⟨h₁, -⟩ <;>
      rcases mem_insert.mp hm2 with heq2 | ⟨h₂, -⟩
    · simp only [Prod.mk.injEq] at heq1 heq2
      omega
    · obtain ⟨rfl, rfl⟩ := heq1
      rcases hfr _ _ h₂ with h' | h' <;> omega
    · obtain ⟨rfl, rfl⟩ := heq2
      rcases hfr _ _ h₁ with h' | h' <;> omega
    · exact h.apart _ _ _ _ h₁ h₂ hlt
  · rcases mem_insert.mp hm' with heq | ⟨hm', -⟩
    · cases heq
      exact hft
    · exact h.fits _ _ hm'

end

/-- A piece added or replaced: its bytes at its offsets, and the others as before. -/
theorem byteIn_insert (hins : Apart (m.insert s d)) (h : Apart m)
    (hkp : ∀ d', (s, d') ∈ m → d'.len ≤ d.len) (off : ℕ) :
    byteIn (m.insert s d) off =
      if s ≤ off ∧ off < s + d.len then d.data[off - s]? else byteIn m off := by
  split_ifs with hoff
  · exact hins.byteIn_of_mem (mem_insert.mpr (.inl rfl)) hoff.1 hoff.2
  · cases hb : byteIn m off with
    | none =>
      rw [hins.byteIn_eq_none]
      intro s' d' hm' hs'
      rcases mem_insert.mp hm' with heq | ⟨hm', -⟩
      · obtain ⟨rfl, rfl⟩ := heq
        omega
      · exact h.byteIn_eq_none.mp hb s' d' hm' hs'
    | some b =>
      obtain ⟨s', d', hm', hs', he', hb'⟩ := h.exists_mem_of_byteIn hb
      have hne : s' ≠ s := by
        rintro rfl
        have := hkp d' hm'
        omega
      rw [hins.byteIn_of_mem (mem_insert.mpr (.inr ⟨hm', hne⟩)) hs' he', hb']

end Apart

end Flowscope
