import Flowscope.Segment.Pieces

/-!
# What absorbing a segment does to the store

`Ooo.absorb` works on pieces and runs; this module says what it does to each offset. A byte of the
segment goes into the store where nothing was held, and where something was held when the overlap
policy lets the segment win against the one that supplied it; every other byte stays
(`Ooo.byteIn_absorb`), and the runs say the same of the segments' starts (`Ooo.segOf_absorb`). The
stages are taken one by one: the pieces that are touched, the ranges that are won, the writes, and
the union.
-/

namespace Flowscope

open List OrdMap

namespace Ooo

/-! ## The pieces that are touched -/

variable {w : ℕ × ℕ} {s : ℕ} {α : Type*} {d : Piece}

/-- Where no element passes the test after one that fails it, the elements up to the first failure
are those that pass. -/
theorem takeWhile_eq_filter {p : α → Bool} {l : List α}
    (h : l.Pairwise fun a b => p b = true → p a = true) : l.takeWhile p = l.filter p := by
  induction l with
  | nil => rfl
  | cons a l ih =>
    obtain ⟨ha, hl⟩ := pairwise_cons.mp h
    by_cases hp : p a = true
    · rw [takeWhile_cons_of_pos hp, filter_cons_of_pos hp, ih hl]
    · rw [takeWhile_cons_of_neg hp, filter_cons_of_neg hp, eq_comm, filter_eq_nil_iff]
      exact fun b hb hpb => hp (ha b hb hpb)

variable {o : Ooo} {policy : TcpOverlapPolicy} {start end_ : ℕ} {payload : List UInt8}

theorem hits_eq (h : Apart o.pieces) (start end_ : ℕ) :
    o.hits start end_ =
      ((o.pieces.upTo end_).filter fun e => start ≤ e.1 + e.2.len).map Prod.fst := by
  have hrev : ((o.pieces.upTo end_).reverse).Pairwise fun a b =>
      (decide (start ≤ b.1 + b.2.len)) = true → decide (start ≤ a.1 + a.2.len) = true := by
    rw [pairwise_reverse]
    refine (o.pieces.sorted.filter _).imp_of_mem fun {a b} ha hb hlt => ?_
    have ha := (mem_upTo.mp ha).1
    have hb := (mem_upTo.mp hb).1
    have := h.apart _ _ _ _ ha hb hlt
    simp only [decide_eq_true_eq]
    omega
  unfold hits
  rw [takeWhile_eq_filter hrev, filter_reverse, reverse_reverse]

/-- The pieces that are touched are those that overlap the segment or are adjacent to it. -/
theorem mem_hits (h : Apart o.pieces) :
    s ∈ o.hits start end_ ↔ ∃ d, (s, d) ∈ o.pieces ∧ s ≤ end_ ∧ start ≤ s + d.len := by
  rw [hits_eq h, mem_map]
  constructor
  · rintro ⟨⟨s', d⟩, he, rfl⟩
    obtain ⟨he, hlen⟩ := mem_filter.mp he
    obtain ⟨hm, hs⟩ := mem_upTo.mp he
    exact ⟨d, hm, hs, by simpa using hlen⟩
  · rintro ⟨d, hm, hs, hlen⟩
    exact ⟨(s, d), mem_filter.mpr ⟨mem_upTo.mpr ⟨hm, hs⟩, by simpa using hlen⟩, rfl⟩

theorem hits_sorted (h : Apart o.pieces) (start end_ : ℕ) :
    (o.hits start end_).Pairwise (· < ·) := by
  rw [hits_eq h]
  exact pairwise_map.mpr ((o.pieces.sorted.filter _).filter _)

theorem pieceAt_eq (hm : (s, d) ∈ o.pieces) : o.pieceAt s = d := by
  rw [pieceAt, get?_eq_some.mpr hm, Option.getD_some]

/-! ## The ranges that are won -/

/-- The policies that do not compare sequence numbers do not look at the segment that supplied a
byte. -/
theorem newWins_existing (policy : TcpOverlapPolicy) (seg : ℕ) (existing : Option ℕ) :
    newWins policy seg (if policy.bySeq then existing else none) = newWins policy seg existing := by
  cases policy <;> rfl

def InRanges (ranges : List (ℕ × ℕ)) (off : ℕ) : Prop := ∃ w ∈ ranges, w.1 ≤ off ∧ off < w.2

theorem inRanges_cons {ranges : List (ℕ × ℕ)} {off : ℕ} :
    InRanges (w :: ranges) off ↔ w.1 ≤ off ∧ off < w.2 ∨ InRanges ranges off := by
  simp [InRanges]

/-- One iteration: the rest of a run, on which the segment wins everywhere or nowhere. -/
theorem wonRanges_succ (policy : TcpOverlapPolicy) (start : ℕ) (hrn : o.runs.Apart) {at_ : ℕ}
    (hlt : at_ < end_) (n : ℕ) :
    ∃ runEnd, at_ < runEnd ∧ runEnd ≤ end_ ∧
      (∀ i, at_ ≤ i → i < runEnd →
        newWins policy start (o.segOf i) = newWins policy start (o.segOf at_)) ∧
      o.wonRanges policy start (n + 1) at_ end_ =
        (if newWins policy start (o.segOf at_) then [(at_, runEnd)] else []) ++
          o.wonRanges policy start n runEnd end_ := by
  refine ⟨if policy.bySeq then min (o.runEnd at_) end_ else end_, ?_, ?_, ?_, ?_⟩
  · split_ifs
    · exact lt_min (o.runs.lt_spanEnd at_) hlt
    · exact hlt
  · split_ifs
    · exact min_le_right _ _
    · exact le_rfl
  · intro i hi hi'
    by_cases hseq : policy.bySeq = true
    · rw [if_pos hseq] at hi'
      have : o.segOf i = o.segOf at_ :=
        Spans.lookup_of_lt_spanEnd hrn hi (lt_of_lt_of_le hi' (min_le_left _ _))
      rw [this]
    · rw [← newWins_existing policy start (o.segOf i), ← newWins_existing policy start (o.segOf at_),
        if_neg hseq, if_neg hseq]
  · rw [wonRanges, if_pos hlt]
    simp only [newWins_existing]

/-- The ranges that are won lie in the range that is asked for. -/
theorem wonRanges_bounds (hrn : o.runs.Apart) (n at_ : ℕ) :
    ∀ w ∈ o.wonRanges policy start n at_ end_, at_ ≤ w.1 ∧ w.1 < w.2 ∧ w.2 ≤ end_ := by
  induction n generalizing at_ with
  | zero => simp [wonRanges]
  | succ n ih =>
    intro w hw
    by_cases hlt : at_ < end_
    · obtain ⟨runEnd, hat, hend, -, heq⟩ :=
        wonRanges_succ policy start hrn hlt n
      rw [heq, mem_append] at hw
      rcases hw with hw | hw
      · split_ifs at hw
        · obtain rfl := mem_singleton.mp hw
          exact ⟨le_rfl, hat, hend⟩
        · simp at hw
      · have := ih runEnd w hw
        omega
    · simp [wonRanges, hlt] at hw

/-- The ranges that are won cover the offsets at which the segment wins. -/
theorem inRanges_wonRanges (policy : TcpOverlapPolicy) (start : ℕ)
    (hrn : o.runs.Apart) (n at_ : ℕ) (hn : end_ - at_ ≤ n) (off : ℕ) :
    InRanges (o.wonRanges policy start n at_ end_) off ↔
      at_ ≤ off ∧ off < end_ ∧ newWins policy start (o.segOf off) = true := by
  induction n generalizing at_ with
  | zero =>
    simp only [wonRanges, InRanges, not_mem_nil, false_and, exists_false, false_iff]
    omega
  | succ n ih =>
    by_cases hlt : at_ < end_
    · obtain ⟨runEnd, hat, hend, hsm, heq⟩ :=
        wonRanges_succ policy start hrn hlt n
      have hrs := ih runEnd (by omega)
      rw [heq]
      split_ifs with hwin
      · rw [singleton_append, inRanges_cons, hrs]
        constructor
        · rintro (⟨h1, h2⟩ | ⟨h1, h2, h3⟩)
          · exact ⟨h1, by omega, by rw [hsm off h1 h2, hwin]⟩
          · exact ⟨by omega, h2, h3⟩
        · rintro ⟨h1, h2, h3⟩
          by_cases hoff : off < runEnd
          · exact .inl ⟨h1, hoff⟩
          · exact .inr ⟨not_lt.mp hoff, h2, h3⟩
      · rw [nil_append, hrs]
        constructor
        · rintro ⟨h1, h2, h3⟩
          exact ⟨by omega, h2, h3⟩
        · rintro ⟨h1, h2, h3⟩
          refine ⟨not_lt.mp fun hoff => hwin ?_, h2, h3⟩
          rw [← hsm off h1 hoff, h3]
    · simp only [wonRanges, if_neg hlt, InRanges, not_mem_nil, false_and, exists_false, false_iff]
      omega

/-- The ranges to write: each lies in one piece and in the segment. -/
theorem writes_bounds (h : Apart o.pieces) (hrn : o.runs.Apart)
    (hw : w ∈ (o.hits start end_).flatMap fun s => o.writesAt policy start end_ s) :
    ∃ s d, (s, d) ∈ o.pieces ∧ s ≤ w.1 ∧ w.1 < w.2 ∧ w.2 ≤ s + d.len ∧ start ≤ w.1 ∧
      w.2 ≤ end_ := by
  obtain ⟨s, hs, hw⟩ := mem_flatMap.mp hw
  obtain ⟨d, hm, -, -⟩ := (mem_hits h).mp hs
  have hb := wonRanges_bounds hrn _ _ w hw
  simp only [overlap, pieceAt_eq hm] at hb
  exact ⟨s, d, hm, by omega, by omega, by omega, by omega, by omega⟩

/-- The ranges to write cover the offsets of the segment that are held and that it wins. -/
theorem inRanges_writes (h : Apart o.pieces) (hrn : o.runs.Apart) (off : ℕ) :
    InRanges ((o.hits start end_).flatMap fun s => o.writesAt policy start end_ s) off ↔
      (start ≤ off ∧ off < end_) ∧ byteIn o.pieces off ≠ none ∧
        newWins policy start (o.segOf off) = true := by
  have hat : ∀ {s d}, (s, d) ∈ o.pieces → (InRanges (o.writesAt policy start end_ s) off ↔
      max start s ≤ off ∧ off < min end_ (s + d.len) ∧
        newWins policy start (o.segOf off) = true) := by
    intro s d hm
    have := inRanges_wonRanges policy start hrn ((o.overlap start end_ s).2 -
      (o.overlap start end_ s).1) (o.overlap start end_ s).1 le_rfl off
    simpa only [writesAt, overlap, pieceAt_eq hm] using this
  rw [h.byteIn_ne_none]
  constructor
  · rintro ⟨w, hw, hoff⟩
    obtain ⟨s, hs, hw⟩ := mem_flatMap.mp hw
    obtain ⟨d, hm, -, -⟩ := (mem_hits h).mp hs
    obtain ⟨h1, h2, h3⟩ := (hat hm).mp ⟨w, hw, hoff⟩
    exact ⟨by omega, ⟨s, d, hm, by omega, by omega⟩, h3⟩
  · rintro ⟨hoff, ⟨s, d, hm, h1, h2⟩, h3⟩
    obtain ⟨w, hw, hof'⟩ := (hat hm).mpr ⟨by omega, by omega, h3⟩
    exact ⟨w, mem_flatMap.mpr ⟨s, (mem_hits h).mpr ⟨d, hm, by omega, by omega⟩, hw⟩, hof'⟩

/-! ## Writing -/

/-- Writing the offsets of a range, in a list that starts at offset `s`. -/
theorem getElem?_foldl_set (f : ℕ → α) (s a n : ℕ) (l : List α) (hs : s ≤ a)
    (hn : a + n ≤ s + l.length) (i : ℕ) :
    ((List.range' a n).foldl (fun l off => l.set (off - s) (f off)) l)[i]? =
      if a ≤ s + i ∧ s + i < a + n then some (f (s + i)) else l[i]? := by
  induction n generalizing a l with
  | zero => simp
  | succ n ih =>
    rw [List.range'_succ, foldl_cons, ih (a + 1) _ (by omega) (by rw [length_set]; omega),
      getElem?_set]
    by_cases hi : a - s = i
    · rw [if_neg (by omega), if_pos hi, if_pos (by omega), if_pos (by omega),
        show s + i = a by omega]
    · rw [if_neg hi]
      refine if_congr ?_ rfl rfl
      omega

theorem length_foldl_set (f : ℕ → α) (s a n : ℕ) (l : List α) :
    ((List.range' a n).foldl (fun l off => l.set (off - s) (f off)) l).length = l.length := by
  induction n generalizing a l with
  | zero => rfl
  | succ n ih => rw [List.range'_succ, foldl_cons, ih, length_set]

/-- What writing may change: the bytes of the pieces, but neither where they are nor what they
occupy, and the runs. -/
structure Rewritten (o o' : Ooo) : Prop where
  kept : ∀ s d, (s, d) ∈ o.pieces →
    ∃ d', (s, d') ∈ o'.pieces ∧ d'.len = d.len ∧ d'.capacity = d.capacity
  old : ∀ s d', (s, d') ∈ o'.pieces →
    ∃ d, (s, d) ∈ o.pieces ∧ d'.len = d.len ∧ d'.capacity = d.capacity
  total_len : o'.pieces.total Piece.len = o.pieces.total Piece.len
  total_capacity : o'.pieces.total Piece.capacity = o.pieces.total Piece.capacity
  counters : o'.bytes = o.bytes ∧ o'.capacity = o.capacity ∧ o'.arrivals = o.arrivals

theorem Rewritten.refl (o : Ooo) : Rewritten o o :=
  ⟨fun _ d h => ⟨d, h, rfl, rfl⟩, fun _ d h => ⟨d, h, rfl, rfl⟩, rfl, rfl, rfl, rfl, rfl⟩

theorem Rewritten.trans {o1 o2 o3 : Ooo} (h : Rewritten o1 o2) (h' : Rewritten o2 o3) :
    Rewritten o1 o3 := by
  refine ⟨fun s d hm => ?_, fun s d hm => ?_, h'.total_len.trans h.total_len,
    h'.total_capacity.trans h.total_capacity, h'.counters.1.trans h.counters.1,
    h'.counters.2.1.trans h.counters.2.1, h'.counters.2.2.trans h.counters.2.2⟩
  · obtain ⟨d2, hm2, hl, hc⟩ := h.kept s d hm
    obtain ⟨d3, hm3, hl', hc'⟩ := h'.kept s d2 hm2
    exact ⟨d3, hm3, hl'.trans hl, hc'.trans hc⟩
  · obtain ⟨d2, hm2, hl, hc⟩ := h'.old s d hm
    obtain ⟨d1, hm1, hl', hc'⟩ := h.old s d2 hm2
    exact ⟨d1, hm1, hl.trans hl', hc.trans hc'⟩

theorem Rewritten.apart {o' : Ooo} (h : Rewritten o o') (ho : Apart o.pieces) :
    Apart o'.pieces := by
  refine ⟨fun s d hm => ?_, fun s d s' d' hm hm' hlt => ?_, fun s d hm => ?_⟩
  · obtain ⟨d0, hm0, hl, -⟩ := h.old s d hm
    exact hl ▸ ho.nonempty _ _ hm0
  · obtain ⟨d0, hm0, hl, -⟩ := h.old s d hm
    obtain ⟨d1, hm1, -, -⟩ := h.old s' d' hm'
    exact hl ▸ ho.apart _ _ _ _ hm0 hm1 hlt
  · obtain ⟨d0, hm0, hl, hc⟩ := h.old s d hm
    rw [hl, hc]
    exact ho.fits _ _ hm0

/-- Replacing a piece by one of the same size. -/
theorem rewritten_insert {o' : Ooo} {d' : Piece} (hm : (s, d) ∈ o.pieces)
    (hpc : o'.pieces = o.pieces.insert s d') (hlen : d'.len = d.len)
    (hcap : d'.capacity = d.capacity)
    (hct : o'.bytes = o.bytes ∧ o'.capacity = o.capacity ∧ o'.arrivals = o.arrivals) :
    Rewritten o o' := by
  refine ⟨fun s1 d1 hm1 => ?_, fun s1 d1 hm1 => ?_, ?_, ?_, hct⟩
  · rw [hpc]
    by_cases hs : s1 = s
    · subst hs
      cases eq_of_mem hm1 hm rfl
      exact ⟨d', mem_insert.mpr (.inl rfl), hlen, hcap⟩
    · exact ⟨d1, mem_insert.mpr (.inr ⟨hm1, hs⟩), rfl, rfl⟩
  · rw [hpc] at hm1
    rcases mem_insert.mp hm1 with heq | ⟨hm1, -⟩
    · cases heq
      exact ⟨d, hm, hlen, hcap⟩
    · exact ⟨d1, hm1, rfl, rfl⟩
  · rw [hpc, total_insert, hlen, ← total_erase hm]
  · rw [hpc, total_insert, hcap, ← total_erase hm]

/-- One write: the bytes of the range are those of the payload, and so is their provenance. -/
theorem write_spec (policy : TcpOverlapPolicy) (h : Apart o.pieces)
    (hm : (s, d) ∈ o.pieces) (hs : s ≤ w.1) (hlt : w.1 < w.2) (he : w.2 ≤ s + d.len)
    (hsr : start ≤ w.1) (hend : w.2 ≤ start + payload.length) :
    Rewritten o (write policy start payload o w) ∧
      (∀ off, byteIn (write policy start payload o w).pieces off =
        if w.1 ≤ off ∧ off < w.2 then payload[off - start]? else byteIn o.pieces off) ∧
      (write policy start payload o w).runs =
        if policy.bySeq then o.runs.put w.1 w.2 start else o.runs := by
  have hls := h.getLast?_upTo hm hs (hlt.trans_le he)
  -- the piece with its new bytes
  let data := (List.range' w.1 (w.2 - w.1)).foldl
    (fun data off => data.set (off - s) (payload.getD (off - start) 0)) d.data
  let d' : Piece := { d with data }
  have hlen : d'.len = d.len := length_foldl_set _ _ _ _ _
  have hfit : w.1 + (w.2 - w.1) ≤ s + d.data.length := by
    have : d.data.length = d.len := rfl
    omega
  have hget : ∀ i, d'.data[i]? =
      if w.1 ≤ s + i ∧ s + i < w.2 then payload[s + i - start]? else d.data[i]? := by
    intro i
    have := getElem?_foldl_set (fun off => payload.getD (off - start) 0) s w.1 (w.2 - w.1) d.data hs
      hfit i
    rw [Nat.add_sub_cancel' hlt.le] at this
    refine this.trans (ite_congr rfl (fun hi => ?_) fun _ => rfl)
    have hi' : s + i - start < payload.length := by omega
    rw [getD_eq_getElem?_getD, getElem?_eq_getElem hi', Option.getD_some]
  have hpc : (write policy start payload o w).pieces = o.pieces.insert s d' := by
    unfold write
    rw [hls]
    split_ifs <;> rfl
  have hre : Rewritten o (write policy start payload o w) := by
    refine rewritten_insert hm hpc hlen rfl ?_
    unfold write
    rw [hls]
    split_ifs <;> exact ⟨rfl, rfl, rfl⟩
  refine ⟨hre, fun off => ?_, ?_⟩
  · have hap := hre.apart h
    rw [hpc] at hap ⊢
    rw [hap.byteIn_insert h fun d1 hm1 => ?_, hlen]
    · by_cases hoff : s ≤ off ∧ off < s + d.len
      · rw [if_pos hoff, hget, Nat.add_sub_cancel' hoff.1, ← h.byteIn_of_mem hm hoff.1 hoff.2]
      · rw [if_neg hoff, if_neg (by omega)]
    · cases eq_of_mem hm1 hm rfl
      exact hlen.ge
  · unfold write
    rw [hls]
    split_ifs <;> rfl

/-- The provenance of the offsets with `P` becomes the segment's start, where it is recorded. -/
structure Marks (policy : TcpOverlapPolicy) (start : ℕ) (P : ℕ → Prop) (o o' : Ooo) : Prop where
  apart : o'.runs.Apart
  marked : policy.bySeq = true → ∀ off, P off → o'.segOf off = some start
  kept : ∀ off, ¬P off → o'.segOf off = o.segOf off
  unused : policy.bySeq = false → o'.runs = o.runs

section Marks

variable {P Q R : ℕ → Prop} {o' o'' : Ooo}

theorem marks_of_runs_eq (hrn : o.runs.Apart) (heq : o'.runs = o.runs) (hP : ∀ off, ¬P off) :
    Marks policy start P o o' :=
  ⟨heq ▸ hrn, fun _ off h => absurd h (hP off), fun _ _ => by rw [segOf, heq, segOf], fun _ => heq⟩

theorem marks_put {lo hi : ℕ} (hrn : o.runs.Apart)
    (heq : o'.runs = if policy.bySeq then o.runs.put lo hi start else o.runs) :
    Marks policy start (fun off => lo ≤ off ∧ off < hi) o o' := by
  cases hp : policy.bySeq with
  | false =>
    rw [hp, if_neg Bool.false_ne_true] at heq
    exact ⟨heq ▸ hrn, fun h => by simp [hp] at h, fun _ _ => by rw [segOf, heq, segOf],
      fun _ => heq⟩
  | true =>
    rw [hp, if_pos rfl] at heq
    have hseg : ∀ off, o'.segOf off = if lo ≤ off ∧ off < hi then some start else o.segOf off :=
      fun off => by rw [segOf, heq, Spans.lookup_put hrn, segOf]
    exact ⟨heq ▸ hrn.put _ _ _, fun _ off hoff => (hseg off).trans (if_pos hoff),
      fun off hoff => (hseg off).trans (if_neg hoff), fun h => by simp [hp] at h⟩

theorem Marks.trans (h : Marks policy start P o o') (h' : Marks policy start Q o' o'')
    (hR : ∀ off, R off ↔ P off ∨ Q off) : Marks policy start R o o'' := by
  refine ⟨h'.apart, fun hp off hoff => ?_, fun off hoff => ?_, fun hp =>
    (h'.unused hp).trans (h.unused hp)⟩
  · by_cases hq : Q off
    · exact h'.marked hp off hq
    · rw [h'.kept off hq, h.marked hp off (((hR off).mp hoff).resolve_right hq)]
  · rw [hR, not_or] at hoff
    rw [h'.kept off hoff.2, h.kept off hoff.1]

end Marks

/-- All writes: the offsets that they cover have the bytes of the payload, and its provenance. -/
theorem foldl_write_spec (policy : TcpOverlapPolicy) (start : ℕ) (payload : List UInt8)
    {writes : List (ℕ × ℕ)} (h : Apart o.pieces) (hrn : o.runs.Apart)
    (hw : ∀ w ∈ writes, ∃ s d, (s, d) ∈ o.pieces ∧ s ≤ w.1 ∧ w.1 < w.2 ∧ w.2 ≤ s + d.len ∧
      start ≤ w.1 ∧ w.2 ≤ start + payload.length) :
    let o' := writes.foldl (write policy start payload) o
    Rewritten o o' ∧ Marks policy start (InRanges writes) o o' ∧
      (∀ off, InRanges writes off → byteIn o'.pieces off = payload[off - start]?) ∧
      ∀ off, ¬InRanges writes off → byteIn o'.pieces off = byteIn o.pieces off := by
  induction writes generalizing o with
  | nil =>
    have hno : ∀ off, ¬InRanges [] off := fun off => by simp [InRanges]
    exact ⟨Rewritten.refl o, marks_of_runs_eq hrn rfl hno, fun off hoff => absurd hoff (hno off),
      fun _ _ => rfl⟩
  | cons w writes ih =>
    obtain ⟨s, d, hm, hs, hlt, he, hsr, hend⟩ := hw w (by simp)
    obtain ⟨hre, hbyt, hrun⟩ := write_spec policy h hm hs hlt he hsr hend
    have hmk := marks_put hrn hrun
    obtain ⟨hre', hmk', hin, hout⟩ := ih (hre.apart h) hmk.apart fun w' hw' => by
      obtain ⟨s', d', hm', hb⟩ := hw w' (by simp [hw'])
      obtain ⟨d'', hm'', hl, -⟩ := hre.kept s' d' hm'
      exact ⟨s', d'', hm'', by rw [hl]; exact hb⟩
    rw [foldl_cons]
    refine ⟨hre.trans hre', hmk.trans hmk' fun _ => inRanges_cons, fun off hoff => ?_,
      fun off hoff => ?_⟩
    · by_cases hrs : InRanges writes off
      · exact hin off hrs
      · rw [hout off hrs, hbyt, if_pos ((inRanges_cons.mp hoff).resolve_right hrs)]
    · rw [inRanges_cons, not_or] at hoff
      rw [hout off hoff.2, hbyt, if_neg hoff.1]

end Ooo

end Flowscope
