import Flowscope.Segment.Pieces

/-!
# Joining pieces

`Ooo.coalesce` joins the pieces that a segment touches, and the segment's bytes between and around
them, to one piece. The union is a list of ranges, each a part or new bytes (`Ooo.fillFrom`); read
in order they give the bytes of the union (`Ooo.fill_reads`), and the ranges of new bytes are the
offsets that no part covers (`Ooo.inNew_fillFrom`). Growing the largest part at both ends gives the
same bytes in the same order (`Ooo.growFrom_spec`).
-/

namespace Flowscope

open List Option

/-- The list has the values of `F` at the `n` offsets from `lo`. -/
def Reads (d : List UInt8) (lo : ℕ) (F : ℕ → Option UInt8) (n : ℕ) : Prop :=
  d.length = n ∧ ∀ k < n, d[k]? = F (lo + k)

variable {F : ℕ → Option UInt8}

theorem Reads.append {d d' : List UInt8} {lo n n' : ℕ}
    (h : Reads d lo F n) (h' : Reads d' (lo + n) F n') : Reads (d ++ d') lo F (n + n') := by
  refine ⟨by rw [length_append, h.1, h'.1], fun k hk => ?_⟩
  by_cases hkn : k < n
  · rw [getElem?_append_left (by rw [h.1]; exact hkn), h.2 k hkn]
  · rw [getElem?_append_right (by rw [h.1]; omega), h.1, h'.2 (k - n) (by omega)]
    congr 1
    omega

theorem reads_nil (lo : ℕ) (F : ℕ → Option UInt8) : Reads [] lo F 0 :=
  ⟨rfl, fun _ hk => absurd hk (Nat.not_lt_zero _)⟩

/-- Reading a range of a payload. -/
theorem reads_slice {payload : List UInt8} {start lo hi : ℕ}
    (hlo : start ≤ lo) (hhi : hi ≤ start + payload.length)
    (hF : ∀ off, lo ≤ off → off < hi → F off = payload[off - start]?) :
    Reads ((payload.drop (lo - start)).take (hi - lo)) lo F (hi - lo) := by
  refine ⟨?_, fun k hk => ?_⟩
  · rw [length_take, length_drop]
    omega
  · rw [getElem?_take_of_lt hk, getElem?_drop, hF (lo + k) (by omega) (by omega)]
    congr 1
    omega

namespace Ooo

variable {start end_ : ℕ} {payload : List UInt8} {parts : List (ℕ × Piece)}

/-- Parts of a store that touch the segment `[start, end_)`, in order. -/
structure Joinable (start end_ : ℕ) (parts : List (ℕ × Piece)) : Prop where
  /-- The parts are in order and do not touch. -/
  apart : parts.Pairwise fun p q => p.1 + p.2.len < q.1
  touch : ∀ p ∈ parts, p.1 ≤ end_ ∧ start ≤ p.1 + p.2.len

theorem unionStart_le (parts : List (ℕ × Piece)) : unionStart start parts ≤ start := by
  unfold unionStart
  split
  · exact min_le_right _ _
  · exact le_rfl

theorem le_unionEnd (parts : List (ℕ × Piece)) : end_ ≤ unionEnd end_ parts := by
  unfold unionEnd
  split
  · exact le_max_right _ _
  · exact le_rfl

section

variable (h : Joinable start end_ parts)
include h

theorem Joinable.unionStart_le : ∀ p ∈ parts, unionStart start parts ≤ p.1 := by
  intro p hp
  cases parts with
  | nil => cases hp
  | cons q ps =>
    refine (min_le_left _ _).trans ?_
    rcases mem_cons.mp hp with rfl | hp
    · exact le_rfl
    · have := (pairwise_cons.mp h.apart).1 p hp
      omega

theorem Joinable.le_unionEnd : ∀ p ∈ parts, p.1 + p.2.len ≤ unionEnd end_ parts := by
  intro p hp
  unfold unionEnd
  cases hl : parts.getLast? with
  | none =>
    rw [getLast?_eq_none_iff.mp hl] at hp
    cases hp
  | some q =>
    obtain ⟨init, rfl⟩ := getLast?_eq_some_iff.mp hl
    dsimp only
    rcases mem_append.mp hp with hp | hp
    · have := (pairwise_append.mp h.apart).2.2 p hp q (by simp)
      omega
    · rw [mem_singleton.mp hp]
      exact le_max_left _ _

/-- The union starts at the segment's start or in a part that reaches it. -/
theorem Joinable.unionStart_cases :
    unionStart start parts = start ∨ ∃ p ∈ parts, unionStart start parts = p.1 ∧
      start ≤ p.1 + p.2.len := by
  cases parts with
  | nil => exact .inl rfl
  | cons p ps =>
    rcases min_choice p.1 start with hmin | hmin
    · exact .inr ⟨p, by simp, hmin, (h.touch p (by simp)).2⟩
    · exact .inl hmin

/-- The union ends at the segment's end or in a part that starts before it. -/
theorem Joinable.unionEnd_cases :
    unionEnd end_ parts = end_ ∨ ∃ p ∈ parts, unionEnd end_ parts = p.1 + p.2.len ∧
      p.1 ≤ end_ := by
  unfold unionEnd
  cases hl : parts.getLast? with
  | none => exact .inl rfl
  | some p =>
    have hp := mem_of_getLast? hl
    rcases max_choice (p.1 + p.2.len) end_ with hmax | hmax
    · exact .inr ⟨p, hp, hmax, (h.touch p hp).1⟩
    · exact .inl hmax

/-- An offset of the union that is in no part is in the segment. -/
theorem Joinable.mem_segment {off : ℕ}
    (hlo : unionStart start parts ≤ off) (hhi : off < unionEnd end_ parts)
    (hout : ∀ p ∈ parts, ¬(p.1 ≤ off ∧ off < p.1 + p.2.len)) : start ≤ off ∧ off < end_ := by
  refine ⟨?_, ?_⟩
  · rcases h.unionStart_cases with heq | ⟨p, hp, heq, hrh⟩
    · omega
    · by_contra hlt
      exact hout p hp ⟨by omega, by omega⟩
  · rcases h.unionEnd_cases with heq | ⟨p, hp, heq, hrh⟩
    · omega
    · by_contra hlt
      exact hout p hp ⟨by omega, by omega⟩

end

/-! ## The ranges of the union -/

/-- The parts from the `i`-th on, ahead of a cursor and before the end of the union. -/
structure Rest (unionEnd cursor : ℕ) (parts : List (ℕ × Piece)) (i : ℕ)
    (rest : List (ℕ × Piece)) : Prop where
  /-- They are the parts from the `i`-th on. -/
  index : ∀ k p, rest[k]? = some p → parts[i + k]? = some p
  /-- They are in order and do not touch. -/
  apart : rest.Pairwise fun p q => p.1 + p.2.len < q.1
  /-- They lie between the cursor and the end. -/
  ahead : ∀ p ∈ rest, cursor ≤ p.1 ∧ p.1 + p.2.len ≤ unionEnd
  cursor_le : cursor ≤ unionEnd

theorem Rest.tail {unionEnd cursor i s : ℕ} {d : Piece} {rest : List (ℕ × Piece)}
    (h : Rest unionEnd cursor parts i ((s, d) :: rest)) :
    cursor ≤ s ∧ s + d.len ≤ unionEnd ∧ parts[i]? = some (s, d) ∧
      Rest unionEnd (s + d.len) parts (i + 1) rest := by
  obtain ⟨hhd, htl⟩ := pairwise_cons.mp h.apart
  obtain ⟨hs, he⟩ := h.ahead (s, d) (by simp)
  refine ⟨hs, he, by simpa using h.index 0 (s, d) rfl, ?_, htl, fun p hp => ?_, he⟩
  · intro k p hk
    rw [show i + 1 + k = i + (k + 1) by omega]
    exact h.index (k + 1) p (by simpa using hk)
  · have := hhd p hp
    exact ⟨by dsimp only at this; omega, (h.ahead p (by simp [hp])).2⟩

/-- A range of new bytes, if there is one, reads the payload. -/
theorem newRange_reads (parts : List (ℕ × Piece)) {F : ℕ → Option UInt8} (lo hi : ℕ)
    (hnew : ∀ off, lo ≤ off → off < hi →
      (start ≤ off ∧ off < start + payload.length) ∧ F off = payload[off - start]?) :
    Reads ((if lo < hi then [(⟨lo, hi, none⟩ : Fill)] else []).flatMap
      (content start payload parts)) lo F (hi - lo) := by
  by_cases hlt : lo < hi
  · have hls := (hnew (hi - 1) (by omega) (by omega)).1.2
    rw [if_pos hlt, flatMap_singleton]
    refine reads_slice (hnew lo le_rfl hlt).1.1 ?_ fun off h1 h2 => (hnew off h1 h2).2
    dsimp only
    omega
  · rw [if_neg hlt, show hi - lo = 0 by omega]
    exact reads_nil _ _

/-- The ranges in order read the union. -/
theorem fill_reads {F : ℕ → Option UInt8} {unionEnd cursor i : ℕ} {rest : List (ℕ × Piece)}
    (h : Rest unionEnd cursor parts i rest)
    (hpt : ∀ p ∈ rest, ∀ k < p.2.len, p.2.data[k]? = F (p.1 + k))
    (hnew : ∀ off, cursor ≤ off → off < unionEnd →
      (∀ p ∈ rest, ¬(p.1 ≤ off ∧ off < p.1 + p.2.len)) →
      (start ≤ off ∧ off < start + payload.length) ∧ F off = payload[off - start]?) :
    Reads ((fillFrom unionEnd cursor i rest).flatMap (content start payload parts)) cursor F
      (unionEnd - cursor) := by
  induction rest generalizing cursor i with
  | nil => exact newRange_reads _ _ _ fun off h1 h2 => hnew off h1 h2 (by simp)
  | cons p rest ih =>
    obtain ⟨s, d⟩ := p
    obtain ⟨hs, he, hidx, htl⟩ := h.tail
    have hgap := newRange_reads parts cursor s fun off h1 h2 =>
      hnew off h1 (by omega) fun p hp hc => by
        rcases mem_cons.mp hp with rfl | hp
        · omega
        · have := (htl.ahead p hp).1
          omega
    have hmid : Reads (content start payload parts ⟨s, s + d.len, some i⟩) s F d.len := by
      refine ⟨?_, fun k hk => ?_⟩
      · simp [content, hidx, Piece.len]
      · simpa [content, hidx] using hpt (s, d) (by simp) k hk
    have hls := ih htl (fun p hp => hpt p (by simp [hp])) fun off h1 h2 h3 => by
      refine hnew off (by omega) h2 fun p hp => ?_
      rcases mem_cons.mp hp with rfl | hp
      · dsimp only
        omega
      · exact h3 p hp
    rw [← Nat.add_sub_cancel' hs] at hmid
    have hall := hgap.append (hmid.append (by rwa [Nat.add_sub_cancel' hs]))
    rw [fillFrom, flatMap_append]
    rwa [show s - cursor + (d.len + (unionEnd - (s + d.len))) = unionEnd - cursor by omega] at hall

/-- A range of new bytes covers an offset. -/
def InNew (fill : List Fill) (off : ℕ) : Prop :=
  ∃ f ∈ fill, f.src = none ∧ f.lo ≤ off ∧ off < f.hi

theorem inNew_append {fill fill' : List Fill} {off : ℕ} :
    InNew (fill ++ fill') off ↔ InNew fill off ∨ InNew fill' off := by
  simp only [InNew, mem_append, or_and_right, exists_or]

theorem inNew_range {lo hi off : ℕ} :
    InNew (if lo < hi then [(⟨lo, hi, none⟩ : Fill)] else []) off ↔ lo ≤ off ∧ off < hi := by
  split_ifs with h
  · simp [InNew]
  · simp only [InNew, not_mem_nil, false_and, exists_false, false_iff]
    omega

variable {unionEnd cursor i : ℕ} {rest : List (ℕ × Piece)}

/-- The ranges of new bytes are the offsets of the union that are in no part. -/
theorem inNew_fillFrom (h : Rest unionEnd cursor parts i rest) (off : ℕ) :
    InNew (fillFrom unionEnd cursor i rest) off ↔
      cursor ≤ off ∧ off < unionEnd ∧ ∀ p ∈ rest, ¬(p.1 ≤ off ∧ off < p.1 + p.2.len) := by
  induction rest generalizing cursor i with
  | nil =>
    rw [fillFrom, inNew_range]
    simp
  | cons p rest ih =>
    obtain ⟨s, d⟩ := p
    obtain ⟨hs, he, -, htl⟩ := h.tail
    have hsk : ∀ l : List Fill, InNew (⟨s, s + d.len, some i⟩ :: l) off ↔ InNew l off := by
      simp [InNew]
    rw [fillFrom, inNew_append, inNew_range, hsk, ih htl]
    simp only [forall_mem_cons]
    constructor
    · rintro (⟨h1, h2⟩ | ⟨h1, h2, h3⟩)
      · refine ⟨h1, by omega, by omega, fun p hp => ?_⟩
        have := (htl.ahead p hp).1
        omega
      · exact ⟨by omega, h2, by omega, h3⟩
    · rintro ⟨h1, h2, h3, h4⟩
      by_cases hoff : off < s
      · exact .inl ⟨h1, hoff⟩
      · exact .inr ⟨by omega, h2, h4⟩

/-- The new bytes of a range. -/
def Fill.newLen (f : Fill) : ℕ :=
  match f.src with
  | some _ => 0
  | none => f.hi - f.lo

/-- The union has the bytes of the parts and the new ones. -/
theorem sum_newLen (h : Rest unionEnd cursor parts i rest) :
    ((fillFrom unionEnd cursor i rest).map Fill.newLen).sum +
      (rest.map fun p => p.2.len).sum = unionEnd - cursor := by
  have hrn : ∀ lo hi : ℕ, lo ≤ hi →
      ((if lo < hi then [(⟨lo, hi, none⟩ : Fill)] else []).map Fill.newLen).sum = hi - lo := by
    intro lo hi hle
    split_ifs with hlt
    · simp [Fill.newLen]
    · simp only [map_nil, sum_nil]
      omega
  induction rest generalizing cursor i with
  | nil => exact hrn _ _ h.cursor_le
  | cons p rest ih =>
    obtain ⟨hs, he, -, htl⟩ := h.tail
    have := ih htl
    rw [fillFrom, map_append, sum_append, hrn _ _ hs, map_cons, sum_cons, map_cons, sum_cons]
    simp only [Fill.newLen]
    omega

/-- The ranges other than one part leave room for that part. -/
theorem sum_other (h : Rest unionEnd cursor parts i rest) (base : Option ℕ) :
    unionEnd - cursor ≤
      (((fillFrom unionEnd cursor i rest).filter fun f => f.src ≠ base || base.isNone).map
        fun f => f.hi - f.lo).sum +
        (base.elim 0 fun j => if i ≤ j then (rest[j - i]?.elim 0 fun p => p.2.len) else 0) := by
  have hrn : ∀ lo hi : ℕ, lo ≤ hi →
      (((if lo < hi then [(⟨lo, hi, none⟩ : Fill)] else []).filter fun f =>
        f.src ≠ base || base.isNone).map fun f => f.hi - f.lo).sum = hi - lo := by
    intro lo hi hle
    split_ifs with hlt
    · cases base <;> simp
    · simp only [filter_nil, map_nil, sum_nil]
      omega
  induction rest generalizing cursor i with
  | nil =>
    rw [fillFrom, hrn _ _ h.cursor_le]
    omega
  | cons p rest ih =>
    obtain ⟨hs, he, -, htl⟩ := h.tail
    have := ih htl
    rw [fillFrom, filter_append, map_append, sum_append, hrn _ _ hs]
    cases base with
    | none =>
      simp only [isNone_none, Bool.or_true, filter_true, map_cons, sum_cons,
        elim_none] at this ⊢
      omega
    | some j =>
      simp only [elim_some] at this ⊢
      rcases lt_trichotomy i j with hij | rfl | hij
      · rw [filter_cons_of_pos (by simp; omega)]
        rw [if_pos (by omega)] at this
        rw [if_pos (by omega), show j - i = (j - (i + 1)) + 1 by omega, getElem?_cons_succ]
        simp only [map_cons, sum_cons]
        omega
      · rw [if_neg (by omega)] at this
        rw [filter_cons_of_neg (by simp), if_pos le_rfl, Nat.sub_self,
          getElem?_cons_zero]
        simp only [elim_some]
        omega
      · rw [if_neg (by omega)] at this
        rw [filter_cons_of_pos (by simp; omega)]
        simp only [map_cons, sum_cons]
        omega

/-! ## The part that grows -/

theorem larger_spec (best : Option (ℕ × ℕ)) (p : (ℕ × Piece) × ℕ) :
    ∃ b, larger best p = some b ∧ (best = some b ∨ b.1 = p.2) := by
  unfold larger
  cases best with
  | none => exact ⟨_, rfl, .inr rfl⟩
  | some b =>
    dsimp only
    split_ifs
    · exact ⟨_, rfl, .inr rfl⟩
    · exact ⟨_, rfl, .inl rfl⟩

/-- The largest of some parts is one of them, or the best one before them. -/
theorem foldl_larger (l : List ((ℕ × Piece) × ℕ)) (best : Option (ℕ × ℕ)) :
    (best = none ∧ l = [] ∧ l.foldl larger best = none) ∨
      ∃ b, l.foldl larger best = some b ∧ (best = some b ∨ ∃ p ∈ l, b.1 = p.2) := by
  induction l generalizing best with
  | nil =>
    cases best with
    | none => exact .inl ⟨rfl, rfl, rfl⟩
    | some b => exact .inr ⟨b, rfl, .inl rfl⟩
  | cons p l ih =>
    obtain ⟨b, hb, hfm⟩ := larger_spec best p
    rw [foldl_cons, hb]
    rcases ih (some b) with ⟨h, -⟩ | ⟨b', hb', hfm'⟩
    · exact absurd h (some_ne_none _)
    · refine .inr ⟨b', hb', ?_⟩
      rcases hfm' with h | ⟨q, hq, h⟩
      · obtain rfl := some.inj h
        rcases hfm with h | h
        · exact .inl h
        · exact .inr ⟨p, by simp, h⟩
      · exact .inr ⟨q, by simp [hq], h⟩

/-- There is a largest part unless there is none. -/
theorem baseIdx_spec (parts : List (ℕ × Piece)) :
    (baseIdx parts = none ∧ parts = []) ∨ ∃ i p, baseIdx parts = some i ∧ parts[i]? = some p := by
  unfold baseIdx
  rcases foldl_larger parts.zipIdx none with ⟨-, hl, h⟩ | ⟨b, h, hb | ⟨p, hp, hb⟩⟩
  · exact .inl ⟨by rw [h]; rfl, by simpa using hl⟩
  · exact absurd hb.symm (some_ne_none _)
  · refine .inr ⟨b.1, p.1, by rw [h]; rfl, ?_⟩
    rw [hb]
    exact mem_zipIdx_iff_getElem?.mp hp

/-- Each part is a range of the union. -/
theorem exists_fill (unionEnd cursor i : ℕ) {k : ℕ} {p : ℕ × Piece} (hk : rest[k]? = some p) :
    ∃ f ∈ fillFrom unionEnd cursor i rest, f.src = some (i + k) := by
  induction rest generalizing cursor i k with
  | nil => simp at hk
  | cons q rest ih =>
    cases k with
    | zero => exact ⟨⟨q.1, q.1 + q.2.len, some i⟩, by simp [fillFrom], rfl⟩
    | succ k =>
      obtain ⟨f, hf, hsrc⟩ := ih (q.1 + q.2.len) (i + 1) (by simpa using hk)
      exact ⟨f, by simp [fillFrom, hf], by rw [hsrc]; congr 1; omega⟩

section

variable (g : Fill → List UInt8) (l : List Fill) (data : List UInt8)

theorem foldl_front : l.reverse.foldl (fun data f => g f ++ data) data = l.flatMap g ++ data := by
  induction l with
  | nil => rfl
  | cons f l ih => rw [reverse_cons, foldl_append, ih]; simp

theorem foldl_back : l.foldl (fun data f => data ++ g f) data = data ++ l.flatMap g := by
  induction l generalizing data with
  | nil => simp
  | cons f l ih => rw [foldl_cons, ih, flatMap_cons, append_assoc]

end

/-- Growing the largest part at both ends gives the ranges in order, and passes over every range of
new bytes once. -/
theorem growFrom_spec (start : ℕ) (payload : List UInt8) (parts : List (ℕ × Piece))
    (unionEnd cursor : ℕ) :
    let fill := fillFrom unionEnd cursor 0 parts
    let base := growFrom payload parts fill
    let content := content start payload parts
    base.2.2.foldl (fun data f => data ++ content f)
        (base.2.1.foldl (fun data f => content f ++ data) base.1.data) = fill.flatMap content ∧
      (∀ off, InNew (base.2.1 ++ base.2.2) off ↔ InNew fill off) ∧
      ((base.2.1 ++ base.2.2).map Fill.newLen).sum = (fill.map Fill.newLen).sum ∧
      base.1.len = ((baseIdx parts).elim 0 fun j => parts[j]?.elim 0 fun p => p.2.len) := by
  intro fill base content
  rcases baseIdx_spec parts with ⟨hnn, hps⟩ | ⟨i, p, hi, hp⟩
  · have hbs : base = (⟨[], payload.length⟩, [], fill) := by
      simp only [base, growFrom, hnn]
    rw [hbs, hnn]
    refine ⟨?_, fun off => Iff.rfl, rfl, rfl⟩
    rw [foldl_back]
    rfl
  · let pos := fill.findIdx fun f => f.src = some i
    have hbs : base = (p.2, (fill.take pos).reverse, fill.drop (pos + 1)) := by
      simp only [base, growFrom, hi, getD_eq_getElem?_getD, hp, getD_some, pos]
    obtain ⟨f, hf, hsrc⟩ := exists_fill unionEnd cursor 0 hp
    have hpos : pos < fill.length :=
      findIdx_lt_length_of_exists ⟨f, hf, by simpa using hsrc⟩
    have hat : (fill[pos]).src = some i := by
      simpa using findIdx_getElem (w := hpos)
    have hsl : fill = fill.take pos ++ fill[pos] :: fill.drop (pos + 1) := by
      rw [← drop_eq_getElem_cons hpos, take_append_drop]
    have hcn : content fill[pos] = p.2.data := by
      simp [content, Ooo.content, hat, hp]
    rw [hbs, hi]
    refine ⟨?_, fun off => ?_, ?_, ?_⟩
    · rw [foldl_front, foldl_back]
      conv_rhs => rw [hsl, flatMap_append, flatMap_cons, hcn]
      rw [append_assoc]
    · have hmid : ∀ l, InNew (fill[pos] :: l) off ↔ InNew l off := fun l => by simp [InNew, hat]
      conv_rhs => rw [hsl]
      rw [inNew_append, inNew_append, hmid]
      simp [InNew]
    · have hzr : Fill.newLen fill[pos] = 0 := by simp [Fill.newLen, hat]
      conv_rhs =>
        rw [hsl, map_append, map_cons, sum_append, sum_cons, hzr]
      rw [map_append, sum_append, map_reverse, sum_reverse, Nat.zero_add]
    · simp [hp]

theorem le_grow (base : Piece) (incoming others max_ooo_buffer : ℕ) :
    base.len + incoming ≤ grow base incoming others max_ooo_buffer := by
  unfold grow
  dsimp only
  split_ifs
  · exact le_max_right _ _
  · omega

end Ooo

end Flowscope
