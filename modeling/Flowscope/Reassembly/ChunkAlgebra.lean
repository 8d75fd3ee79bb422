import Flowscope.Lib.Blanked
import Flowscope.Reassembly.Chunks

/-!
# The algebra of reassembled output

`RawChunks` is `StreamChunks` of `src/reassembler.rs` as it is declared there: bytes, marks and a stop,
with nothing said of the marks, and gap lengths of 64 bits that saturate. Its iterator is the one of
the source, with a position in the bytes and an index in the marks.

Every value that the operations build, as long as the lengths fit into 64 bits, is a `StreamChunks`
(`StreamChunks.raw`), whose marks are in order by construction: each operation of the source is the
one of `StreamChunks` (`raw_pushGap`, `raw_append`, `raw_dropFront`), and so is the walk
(`iter_raw`). What holds of the one then holds of the other (`chunks_algebra`).
-/

namespace Flowscope

open List Option Chunk

/-- Addition of 64-bit numbers that saturates. -/
def satAddU64 (a b : ℕ) : ℕ := min (a + b) (2^64 - 1)

theorem satAddU64_of_lt {a b : ℕ} (h : a + b < 2^64) : satAddU64 a b = a + b :=
  min_eq_left (Nat.le_sub_one_of_lt h)

/-- In-order bytes, marks and a stop. -/
structure RawChunks where
  bytes : List UInt8
  gaps : List GapMark
  stop : Option ReassemblyStop
deriving DecidableEq, Repr

namespace RawChunks

/-- An empty value. -/
def new : RawChunks := ⟨[], [], none⟩

def isEmpty (c : RawChunks) : Bool := c.bytes.isEmpty && c.gaps.isEmpty && c.stop.isNone

/-- Append contiguous bytes. -/
def pushData (c : RawChunks) (data : List UInt8) : RawChunks := { c with bytes := c.bytes ++ data }

/-- Append owned bytes, taking the buffer over when no data is held yet. -/
def pushOwned (c : RawChunks) (data : List UInt8) : RawChunks :=
  if c.bytes.isEmpty then { c with bytes := data } else { c with bytes := c.bytes ++ data }

/-- Add a mark, joining it with the last one when the place is the same. -/
def addMark (gaps : List GapMark) (at_ len : ℕ) : List GapMark :=
  match gaps.getLast? with
  | some last =>
    if last.at_ = at_ then gaps.dropLast ++ [⟨last.at_, satAddU64 last.len len⟩]
    else gaps ++ [⟨at_, len⟩]
  | none => gaps ++ [⟨at_, len⟩]

/-- Record that `len` bytes are missing at the end. -/
def pushGap (c : RawChunks) (len : ℕ) : RawChunks :=
  if len = 0 then c else { c with gaps := addMark c.gaps c.bytes.length len }

/-- Mark the stream as stopped. The first reason wins. -/
def setStop (c : RawChunks) (stop : ReassemblyStop) : RawChunks :=
  { c with stop := some (c.stop.getD stop) }

/-- Move everything from `other` onto the end of `c`. The second component is what is left of
`other`. -/
def append (c other : RawChunks) : RawChunks × RawChunks :=
  let (c, other) :=
    if c.bytes.isEmpty && c.gaps.isEmpty then
      ({ c with bytes := other.bytes, gaps := other.gaps }, { other with bytes := [], gaps := [] })
    else
      let base := c.bytes.length
      ({ c with
          bytes := c.bytes ++ other.bytes
          gaps := other.gaps.foldl (fun gs g => addMark gs (base + g.at_) g.len) c.gaps },
        { other with bytes := [], gaps := [] })
  match other.stop with
  | some stop => (c.setStop stop, { other with stop := none })
  | none => (c, other)

/-- The marks past the first `n` bytes, moved to the front, and `front` with the lengths of the
others added. -/
def retainMarks (n : ℕ) : List GapMark → ℕ → List GapMark × ℕ
  | [], front => ([], front)
  | g :: gs, front =>
    if g.at_ ≤ n then retainMarks n gs (satAddU64 front g.len)
    else
      let (kept, front) := retainMarks n gs front
      (⟨g.at_ - n, g.len⟩ :: kept, front)

/-- Turn the first `n` data bytes into a gap. -/
def dropFront (c : RawChunks) (n : ℕ) : RawChunks :=
  let n := min n c.bytes.length
  if n = 0 then c
  else
    let (kept, front) := retainMarks n c.gaps n
    { c with bytes := c.bytes.drop n, gaps := ⟨0, front⟩ :: kept }

/-- A walk over the chunks: the next byte and the next mark. -/
structure Chunks where
  chunks : RawChunks
  pos : ℕ
  gap_idx : ℕ

/-- The next element of the walk, if there is one, and the walk after it. -/
def Chunks.next (it : Chunks) : Option (Chunk × Chunks) :=
  let c := it.chunks
  let gap : Option GapMark := c.gaps[it.gap_idx]?
  match gap.filter fun g => g.at_ = it.pos with
  | some g => some (.gap g.len, { it with gap_idx := it.gap_idx + 1 })
  | none =>
    if c.bytes.length ≤ it.pos then none
    else
      let end_ := gap.elim c.bytes.length fun g => min g.at_ c.bytes.length
      some (.data ((c.bytes.take end_).drop it.pos), { it with pos := end_ })

/-- The elements of a walk, if it ends within as many of them. -/
def Chunks.collect : ℕ → Chunks → Option (List Chunk)
  | 0, _ => none
  | fuel + 1, it =>
    match it.next with
    | none => some []
    | some (chunk, it) => (it.collect fuel).map (chunk :: ·)

/-- Data and gaps in stream order. Every element takes up a byte or a mark. -/
def iter (c : RawChunks) : Option (List Chunk) :=
  Chunks.collect (c.bytes.length + c.gaps.length + 1) ⟨c, 0, 0⟩

/-- The bytes and missing positions that the walk goes over. -/
def placed (c : RawChunks) : Option (List (Option UInt8)) :=
  c.iter.map fun chunks => chunks.flatMap Chunk.placed

/-- The number of positions, with and without a byte. -/
def total (c : RawChunks) : ℕ := c.bytes.length + (c.gaps.map GapMark.len).sum

/-- The values that the operations build while their lengths fit into 64 bits. -/
inductive Reachable : RawChunks → Prop
  | new : Reachable new
  | pushData {c : RawChunks} (h : Reachable c) (data : List UInt8)
      (hlen : c.total + data.length < 2^64) : Reachable (c.pushData data)
  | pushOwned {c : RawChunks} (h : Reachable c) (data : List UInt8)
      (hlen : c.total + data.length < 2^64) : Reachable (c.pushOwned data)
  | pushGap {c : RawChunks} (h : Reachable c) (n : ℕ) (hlen : c.total + n < 2^64) :
      Reachable (c.pushGap n)
  | setStop {c : RawChunks} (h : Reachable c) (stop : ReassemblyStop) : Reachable (c.setStop stop)
  | append {c d : RawChunks} (hc : Reachable c) (hd : Reachable d)
      (hlen : c.total + d.total < 2^64) : Reachable (c.append d).1
  | dropFront {c : RawChunks} (h : Reachable c) (n : ℕ) : Reachable (c.dropFront n)

end RawChunks

/-! ## The operations on marks in order -/

/-- Without the proof that the marks are in order. -/
def StreamChunks.raw (c : StreamChunks) : RawChunks := ⟨c.bytes, c.gaps, c.stop⟩

namespace RawChunks

variable {c d : StreamChunks} {n : ℕ}

@[simp]
theorem total_raw (c : StreamChunks) : c.raw.total = c.placed.length := by
  rw [StreamChunks.length_placed]
  rfl

variable {gaps : List GapMark}

theorem addMark_eq {at_ len : ℕ}
    (h : (gaps.map GapMark.len).sum + len < 2^64) : addMark gaps at_ len = pushMark gaps at_ len := by
  unfold addMark pushMark
  cases hls : gaps.getLast? with
  | none => rw [getLast?_eq_none_iff.mp hls, nil_append]
  | some last =>
    have hle : last.len ≤ (gaps.map GapMark.len).sum :=
      le_sum_of_mem (mem_map_of_mem (mem_of_getLast? hls))
    dsimp only
    rw [satAddU64_of_lt (by omega)]

theorem raw_pushOwned (c : StreamChunks) (data : List UInt8) :
    c.raw.pushOwned data = (c.pushOwned data).raw := by
  rw [StreamChunks.pushOwned_eq]
  by_cases h : c.bytes = []
  · simp [pushOwned, StreamChunks.raw, StreamChunks.pushData]
  · simp [pushOwned, StreamChunks.raw, StreamChunks.pushData]

theorem raw_pushGap (h : c.raw.total + n < 2^64) : c.raw.pushGap n = (c.pushGap n).raw := by
  unfold total at h
  unfold pushGap StreamChunks.pushGap
  by_cases hn : n = 0
  · rw [if_pos hn, dif_pos hn]
  · rw [if_neg hn, dif_neg hn, addMark_eq (by omega)]
    rfl

theorem raw_setStop (c : StreamChunks) (stop : ReassemblyStop) :
    c.raw.setStop stop = (c.setStop stop).raw := by
  unfold StreamChunks.setStop StreamChunks.raw
  cases c.stop <;> rfl

theorem foldl_addMark_eq (base : ℕ) {l : List GapMark}
    (h : (gaps.map GapMark.len).sum + (l.map GapMark.len).sum < 2^64) :
    l.foldl (fun gs g => addMark gs (base + g.at_) g.len) gaps =
      l.foldl (fun gs g => pushMark gs (base + g.at_) g.len) gaps := by
  induction l generalizing gaps with
  | nil => rfl
  | cons g l ih =>
    rw [map_cons, sum_cons] at h
    rw [foldl_cons, addMark_eq (by omega)]
    refine ih ?_
    rw [StreamChunks.sum_pushMark]
    omega

theorem raw_append (h : c.raw.total + d.raw.total < 2^64) :
    (c.raw.append d.raw).1 = (c.append d).1.raw ∧ (c.raw.append d.raw).2 = new := by
  have hlen : (c.gaps.map GapMark.len).sum + (d.gaps.map GapMark.len).sum < 2^64 := by
    simp only [total, StreamChunks.raw] at h
    omega
  have hfo := foldl_addMark_eq c.bytes.length hlen
  unfold append StreamChunks.append
  by_cases hc : c.bytes = [] ∧ c.gaps = []
  · cases hsp : d.stop with
    | none => simp [StreamChunks.raw, hc, hsp, new]
    | some stop =>
      cases hsp' : c.stop <;>
        simp [StreamChunks.raw, hc, hsp, hsp', new, setStop, StreamChunks.setStop]
  · cases hsp : d.stop with
    | none => simp [StreamChunks.raw, hc, hsp, new, hfo]
    | some stop =>
      cases hsp' : c.stop <;>
        simp [StreamChunks.raw, hc, hsp, hsp', new, setStop, StreamChunks.setStop, hfo]

theorem retainMarks_eq {front : ℕ} (h : front + (gaps.map GapMark.len).sum < 2^64) :
    retainMarks n gaps front =
      ((gaps.filter fun g => n < g.at_).map fun g => ⟨g.at_ - n, g.len⟩,
        front + ((gaps.filter fun g => g.at_ ≤ n).map GapMark.len).sum) := by
  induction gaps generalizing front with
  | nil => rfl
  | cons g gs ih =>
    rw [map_cons, sum_cons] at h
    unfold retainMarks
    split_ifs with hg
    · rw [satAddU64_of_lt (by omega), ih (by omega)]
      simp [hg, Nat.add_assoc]
    · rw [ih (by omega)]
      simp [not_le.mp hg]

theorem raw_dropFront (h : c.raw.total < 2^64) (n : ℕ) :
    c.raw.dropFront n = (c.dropFront n).raw := by
  have hby : c.raw.bytes = c.bytes := rfl
  have hgp : c.raw.gaps = c.gaps := rfl
  unfold total at h
  rw [hby, hgp] at h
  unfold dropFront StreamChunks.dropFront
  rw [hby, hgp]
  by_cases hn : min n c.bytes.length = 0
  · rw [if_pos hn, dif_pos hn]
  · rw [if_neg hn, dif_neg hn, retainMarks_eq (by omega)]
    rfl

/-! ## The walk -/

section Next

variable {c : RawChunks} {pos idx : ℕ} {g : GapMark}

theorem next_gap (hg : c.gaps[idx]? = some g) (hat : g.at_ = pos) :
    Chunks.next ⟨c, pos, idx⟩ = some (.gap g.len, ⟨c, pos, idx + 1⟩) := by
  unfold Chunks.next
  dsimp only
  rw [hg, filter_some, if_pos (decide_eq_true hat)]

theorem next_data (hg : c.gaps[idx]? = some g) (hat : g.at_ ≠ pos) (hpos : pos < c.bytes.length) :
    Chunks.next ⟨c, pos, idx⟩ =
      some (.data ((c.bytes.take (min g.at_ c.bytes.length)).drop pos),
        ⟨c, min g.at_ c.bytes.length, idx⟩) := by
  unfold Chunks.next
  dsimp only
  rw [hg, filter_some, if_neg (by simpa using hat)]
  rw [if_neg (not_le.mpr hpos)]
  rfl

theorem next_last (hg : c.gaps[idx]? = none) (hpos : pos < c.bytes.length) :
    Chunks.next ⟨c, pos, idx⟩ = some (.data (c.bytes.drop pos), ⟨c, c.bytes.length, idx⟩) := by
  unfold Chunks.next
  dsimp only
  rw [hg, filter_none]
  rw [if_neg (not_le.mpr hpos), elim_none, take_length]

theorem next_none (hg : c.gaps[idx]? = none) (hpos : c.bytes.length ≤ pos) :
    Chunks.next ⟨c, pos, idx⟩ = none := by
  unfold Chunks.next
  dsimp only
  rw [hg, filter_none]
  rw [if_pos hpos]

end Next

theorem collect_of_next {it it' : Chunks} {chunk : Chunk} {chunks : List Chunk} {fuel : ℕ}
    (h : it.next = some (chunk, it')) (hrs : it'.collect fuel = some chunks) :
    it.collect (fuel + 1) = some (chunk :: chunks) := by
  unfold Chunks.collect
  rw [h]
  dsimp only
  rw [hrs, map_some]

/-- The rest of a walk, from a place where the marks that are left lie ahead. -/
theorem collect_eq {pos idx fuel : ℕ} (hpos : pos ≤ c.bytes.length)
    (h : StreamChunks.Ahead pos (c.bytes.length - pos) (c.gaps.drop idx))
    (hfl : c.bytes.length - pos + (c.gaps.length - idx) < fuel) :
    Chunks.collect fuel ⟨c.raw, pos, idx⟩ =
      some (StreamChunks.walk pos (c.bytes.drop pos) (c.gaps.drop idx)) := by
  induction fuel generalizing pos idx with
  | zero => omega
  | succ fuel ih =>
    cases hg : c.gaps[idx]? with
    | none =>
      -- only data is left
      have hnil : c.gaps.drop idx = [] := List.drop_of_length_le (List.getElem?_eq_none_iff.mp hg)
      rw [hnil]
      by_cases hend : c.bytes.length ≤ pos
      · rw [Chunks.collect, next_none hg hend, List.drop_of_length_le hend]
        rfl
      · have hah : StreamChunks.Ahead c.bytes.length (c.bytes.length - c.bytes.length)
            (c.gaps.drop idx) := by
          rw [hnil]
          exact ⟨⟨.nil, by simp⟩, by simp⟩
        have hrs := ih le_rfl hah (by omega)
        rw [hnil] at hrs
        rw [collect_of_next (next_last hg (not_le.mp hend)) hrs]
        have hne : c.bytes.drop pos ≠ [] := by simpa using hend
        simp [StreamChunks.walk, hne, StreamChunks.raw]
    | some g =>
      obtain ⟨hidx, hget⟩ := List.getElem?_eq_some_iff.mp hg
      have hdr : c.gaps.drop idx = g :: c.gaps.drop (idx + 1) := by
        rw [← hget, List.drop_eq_getElem_cons hidx]
      have htl := h
      rw [hdr] at htl
      obtain ⟨hle, hlen, htl⟩ := htl.tail
      rw [hdr]
      by_cases hat : g.at_ = pos
      · rw [hat, Nat.sub_self] at htl
        have hrs := ih hpos htl (by omega)
        rw [collect_of_next (next_gap hg hat) hrs]
        simp [StreamChunks.walk, hat]
      · -- the data up to the mark, and then the walk from the mark
        have hmin : min g.at_ c.raw.bytes.length = g.at_ := by
          change min g.at_ c.bytes.length = g.at_
          omega
        have hah : StreamChunks.Ahead g.at_ (c.bytes.length - g.at_) (c.gaps.drop idx) := by
          refine ⟨⟨h.1.1, fun g' hg' => ?_⟩, fun g' hg' => ?_⟩
          · have := h.1.2 g' hg'
            omega
          · rw [hdr] at hg'
            rcases List.mem_cons.mp hg' with rfl | hg'
            · exact le_rfl
            · exact htl.2 g' hg'
        have hrs := ih (by omega) hah (by omega)
        have hlt : pos < c.raw.bytes.length := by
          omega
        have hnx := next_data hg hat hlt
        rw [hmin] at hnx
        rw [collect_of_next hnx hrs, hdr]
        have hne : (c.bytes.drop pos).take (g.at_ - pos) ≠ [] := by
          refine List.ne_nil_of_length_pos ?_
          rw [List.length_take, List.length_drop]
          omega
        rw [StreamChunks.walk, StreamChunks.walk, if_neg hne, Nat.sub_self, List.drop_zero, List.drop_drop, Nat.add_sub_cancel' hle, List.drop_take]
        rfl

theorem iter_raw (c : StreamChunks) : c.raw.iter = some c.iter :=
  collect_eq (Nat.zero_le _) (by simpa using c.ahead_zero) (by simp [StreamChunks.raw])

theorem placed_raw (c : StreamChunks) : c.raw.placed = some c.placed := by
  rw [placed, iter_raw]
  rfl

end RawChunks

/-- Bytes that are missing. -/
def Chunk.isGap : Chunk → Bool
  | .gap _ => true
  | .data _ => false

/-- No bytes, there or missing. -/
def Chunk.isEmpty : Chunk → Bool
  | .gap n => n = 0
  | .data d => d.isEmpty

namespace StreamChunks

variable {rest : List UInt8} {pos n : ℕ}

/-- A walk starts with data unless a mark is where it starts. -/
theorem head?_walk {gaps : List GapMark}
    (h : Ahead pos rest.length gaps) (hlt : ∀ g ∈ gaps, pos < g.at_) :
    ∀ chunk ∈ (walk pos rest gaps).head?, chunk.isGap = false := by
  intro chunk hch
  cases gaps with
  | nil =>
    unfold walk at hch
    split_ifs at hch
    · cases hch
    · obtain rfl : data rest = chunk := by simpa using hch
      rfl
  | cons g gs =>
    have hne : rest.take (g.at_ - pos) ≠ [] := by
      have := hlt g mem_cons_self
      have := h.tail.2.1
      refine ne_nil_of_length_pos ?_
      rw [length_take]
      omega
    rw [walk, if_neg hne] at hch
    obtain rfl : data (rest.take (g.at_ - pos)) = chunk := by simpa using hch
    rfl

/-- A walk has no empty chunk, and no two gaps in a row. -/
theorem walk_proper {gaps : List GapMark} (h : Ahead pos rest.length gaps) :
    (∀ chunk ∈ walk pos rest gaps, chunk.isEmpty = false) ∧
      (walk pos rest gaps).IsChain fun a b => ¬(a.isGap = true ∧ b.isGap = true) := by
  induction gaps generalizing pos rest with
  | nil =>
    unfold walk
    split_ifs with hrs
    · exact ⟨by simp, .nil⟩
    · exact ⟨by simpa [Chunk.isEmpty] using hrs, .singleton _⟩
  | cons g gs ih =>
    obtain ⟨hpos, hlen, htl⟩ := h.tail
    have hah : Ahead g.at_ (rest.drop (g.at_ - pos)).length gs := by rwa [length_drop]
    have hst : ∀ g' ∈ gs, g.at_ < g'.at_ := (pairwise_cons.mp h.1.1).1
    obtain ⟨hpr, hcn⟩ := ih hah
    have hgap : (gap g.len).isEmpty = false := by
      have := (h.1.2 g mem_cons_self).2
      simp [Chunk.isEmpty]
      omega
    have hfm : (gap g.len :: walk g.at_ (rest.drop (g.at_ - pos)) gs).IsChain
        fun a b => ¬(a.isGap = true ∧ b.isGap = true) := by
      refine isChain_cons.mpr ⟨fun b hb => ?_, hcn⟩
      rw [head?_walk hah hst b hb]
      simp
    rw [walk]
    split_ifs with hdt
    · refine ⟨fun chunk hch => ?_, hfm⟩
      rcases mem_cons.mp hch with rfl | hch
      · exact hgap
      · exact hpr chunk hch
    · refine ⟨fun chunk hch => ?_, ?_⟩
      · rcases mem_cons.mp hch with rfl | hch
        · simpa [Chunk.isEmpty] using hdt
        · rcases mem_cons.mp hch with rfl | hch
          · exact hgap
          · exact hpr chunk hch
      · exact isChain_cons.mpr ⟨fun b _ => by simp [isGap], hfm⟩

/-! ## Appending is associative -/

/-- The marks of a continuation, pushed behind others. -/
def pushMarks (gaps : List GapMark) (base : ℕ) (l : List GapMark) : List GapMark :=
  l.foldl (fun gs g => pushMark gs (base + g.at_) g.len) gaps

theorem pushMark_concat (init : List GapMark) (at_ m len : ℕ) :
    pushMark (init ++ [⟨at_, m⟩]) at_ len = init ++ [⟨at_, m + len⟩] := by
  simp [pushMark]

variable (gaps : List GapMark)

theorem pushMark_pushMark (at_ m len : ℕ) :
    pushMark (pushMark gaps at_ m) at_ len = pushMark gaps at_ (m + len) := by
  rcases pushMark_cases gaps at_ m with ⟨heq, hls⟩ | ⟨init, m', rfl, heq⟩
  · rw [heq, pushMark_concat]
    rcases pushMark_cases gaps at_ (m + len) with ⟨heq', -⟩ | ⟨init, m', rfl, -⟩
    · rw [heq']
    · exact absurd rfl (hls ⟨at_, m'⟩ (by simp))
  · rw [heq, pushMark_concat, pushMark_concat, Nat.add_assoc]

theorem pushMarks_pushMark (base : ℕ) (l : List GapMark) (at_ len : ℕ) :
    pushMarks gaps base (pushMark l at_ len) = pushMark (pushMarks gaps base l) (base + at_) len := by
  rcases pushMark_cases l at_ len with ⟨heq, -⟩ | ⟨init, m, rfl, heq⟩
  · rw [heq, pushMarks, foldl_append]
    rfl
  · rw [heq, pushMarks, pushMarks, foldl_append, foldl_append]
    exact (pushMark_pushMark _ _ _ _).symm

theorem pushMarks_pushMarks (base n : ℕ) (l l' : List GapMark) :
    pushMarks (pushMarks gaps base l) (base + n) l' = pushMarks gaps base (pushMarks l n l') := by
  induction l' generalizing l with
  | nil => rfl
  | cons g l' ih =>
    have hfr : pushMark (pushMarks gaps base l) (base + n + g.at_) g.len =
        pushMarks gaps base (pushMark l (n + g.at_) g.len) := by
      rw [pushMarks_pushMark, Nat.add_assoc]
    calc
      pushMarks (pushMarks gaps base l) (base + n) (g :: l')
        = pushMarks (pushMark (pushMarks gaps base l) (base + n + g.at_) g.len) (base + n) l' := rfl
      _ = pushMarks gaps base (pushMarks (pushMark l (n + g.at_) g.len) n l') := by rw [hfr, ih]

/-- Marks in order, pushed one after the other, are those marks. -/
theorem pushMarks_nil {l : List GapMark} (h : Marks n l) : pushMarks [] 0 l = l := by
  induction l using reverseRecOn with
  | nil => rfl
  | append_singleton l g ih =>
    obtain ⟨hsr, -, hls⟩ := pairwise_append.mp h.1
    have hl : Marks n l := ⟨hsr, fun g' hg' => h.2 g' (mem_append_left _ hg')⟩
    have hps : pushMarks [] 0 (l ++ [g]) = pushMark (pushMarks [] 0 l) (0 + g.at_) g.len := by
      rw [pushMarks, foldl_append]
      rfl
    rw [hps, ih hl, Nat.zero_add]
    rcases pushMark_cases l g.at_ g.len with ⟨heq, -⟩ | ⟨init, m, rfl, -⟩
    · exact heq
    · exact absurd (hls ⟨g.at_, m⟩ (by simp) g (by simp)) (lt_irrefl _)

/-- What `append` makes of its operands, whether or not the left one is empty. -/
theorem append_fields (c d : StreamChunks) :
    (c.append d).1.bytes = c.bytes ++ d.bytes ∧
      (c.append d).1.gaps = pushMarks c.gaps c.bytes.length d.gaps ∧
      (c.append d).1.stop = c.stop.or d.stop := by
  have hem : c.bytes = [] ∧ c.gaps = [] →
      d.gaps = pushMarks c.gaps c.bytes.length d.gaps := by
    rintro ⟨hby, hgp⟩
    rw [hby, hgp]
    exact (pushMarks_nil d.marked).symm
  unfold append
  by_cases h : c.bytes = [] ∧ c.gaps = []
  · cases d.stop <;> simpa [h, setStop] using hem h
  · cases d.stop <;> simp [h, setStop, pushMarks]

theorem append_assoc (c d e : StreamChunks) :
    ((c.append d).1.append e).1 = (c.append (d.append e).1).1 := by
  obtain ⟨hby, hgp, hsp⟩ := append_fields c d
  obtain ⟨hby', hgp', hsp'⟩ := append_fields d e
  obtain ⟨hl1, hl2, hl3⟩ := append_fields (c.append d).1 e
  obtain ⟨hr1, hr2, hr3⟩ := append_fields c (d.append e).1
  have hb : ((c.append d).1.append e).1.bytes = (c.append (d.append e).1).1.bytes := by
    rw [hl1, hr1, hby, hby', List.append_assoc]
  have hg : ((c.append d).1.append e).1.gaps = (c.append (d.append e).1).1.gaps := by
    rw [hl2, hr2, hgp, hgp', hby, List.length_append, pushMarks_pushMarks]
  have hs : ((c.append d).1.append e).1.stop = (c.append (d.append e).1).1.stop := by
    rw [hl3, hr3, hsp, hsp', Option.or_assoc]
  generalize ((c.append d).1.append e).1 = x at hb hg hs
  generalize (c.append (d.append e).1).1 = y at hb hg hs
  cases x
  simp_all

/-! ## Dropping from the front -/

/-- The front that is dropped has as many bytes as were asked for. -/
theorem countP_take_frontOf (c : StreamChunks) (n : ℕ) :
    (c.placed.take (c.frontOf n)).countP isSome = min n c.len := by
  have hrs : (c.placed.drop (c.frontOf n)).countP isSome = c.len - n := by
    rw [← len_dropFront, ← countP_placed, placed_dropFront, countP_append,
      countP_replicate_none, Nat.zero_add]
  have hall := c.countP_placed
  rw [← take_append_drop (c.frontOf n) c.placed, countP_append] at hall
  omega

/-- A position that has fewer than `n` bytes before it becomes a missing one, and the others stay as
they are. -/
theorem getElem?_placed_dropFront (c : StreamChunks) (n i : ℕ) (hi : i < c.placed.length) :
    (c.dropFront n).placed[i]? =
      if (c.placed.take i).countP isSome < min n c.len then some none else c.placed[i]? := by
  have hct := c.countP_take_frontOf n
  rw [placed_dropFront]
  by_cases hfn : i < c.frontOf n
  · rw [getElem?_append_left (by simpa using hfn), getElem?_replicate]
    split_ifs with hlt
    · rfl
    · -- the front has no byte from here on
      obtain ⟨x, hx⟩ : ∃ x, c.placed[i]? = some x := ⟨_, getElem?_eq_getElem hi⟩
      have hmn : (c.placed.take (i + 1)).countP isSome ≤
          (c.placed.take (c.frontOf n)).countP isSome :=
        (take_sublist_take_left (by omega)).countP_le
      rw [take_add_one, hx] at hmn
      cases x with
      | none => exact hx.symm
      | some b =>
        simp at hmn
        omega
  · rw [getElem?_append_right (by simpa using hfn), length_replicate,
      getElem?_drop, Nat.add_sub_cancel' (not_lt.mp hfn), if_neg]
    have hmn : (c.placed.take (c.frontOf n)).countP isSome ≤
        (c.placed.take i).countP isSome :=
      (take_sublist_take_left (not_lt.mp hfn)).countP_le
    omega

theorem iter_dropFront {c : StreamChunks} (h : 0 < min n c.len) :
    ∃ rest, (c.dropFront n).iter = .gap (c.frontOf n) :: rest := by
  unfold dropFront frontOf
  rw [dif_neg (show min n c.bytes.length ≠ 0 from Nat.pos_iff_ne_zero.mp h),
    if_neg (show min n c.bytes.length ≠ 0 from Nat.pos_iff_ne_zero.mp h)]
  exact ⟨_, rfl⟩

end StreamChunks

/-! ## The laws -/

namespace RawChunks

/-- Every value that the operations build has its marks in order. -/
theorem Reachable.exists_raw {a : RawChunks} (h : a.Reachable) :
    ∃ c : StreamChunks, c.raw = a ∧ c.placed.length < 2^64 := by
  induction h with
  | new => exact ⟨.new, rfl, by simp⟩
  | pushData h data hlen ih =>
    obtain ⟨c, rfl, -⟩ := ih
    refine ⟨c.pushData data, rfl, ?_⟩
    simpa using hlen
  | pushOwned h data hlen ih =>
    obtain ⟨c, rfl, -⟩ := ih
    refine ⟨c.pushOwned data, (raw_pushOwned c data).symm, ?_⟩
    simpa [StreamChunks.pushOwned_eq] using hlen
  | pushGap h n hlen ih =>
    obtain ⟨c, rfl, -⟩ := ih
    refine ⟨c.pushGap n, (raw_pushGap hlen).symm, ?_⟩
    simpa using hlen
  | setStop h stop ih =>
    obtain ⟨c, rfl, hc⟩ := ih
    exact ⟨c.setStop stop, (raw_setStop c stop).symm, hc⟩
  | append hc hd hlen ihc ihd =>
    obtain ⟨c, rfl, -⟩ := ihc
    obtain ⟨d, rfl, -⟩ := ihd
    refine ⟨(c.append d).1, (raw_append hlen).1.symm, ?_⟩
    simpa using hlen
  | dropFront h n ih =>
    obtain ⟨c, rfl, hc⟩ := ih
    refine ⟨c.dropFront n, (raw_dropFront (by rwa [total_raw]) n).symm, ?_⟩
    rwa [StreamChunks.length_placed_dropFront]

/-- The laws that a value obeys, alone and with others. -/
structure Lawful (a : RawChunks) : Prop where
  /-- The marks are in order, inside the bytes, and none is empty. -/
  marks : a.gaps.Pairwise (fun g h => g.at_ < h.at_) ∧
    ∀ g ∈ a.gaps, 0 < g.len ∧ g.at_ ≤ a.bytes.length
  /-- The walk ends, and has no empty chunk and no two gaps in a row. -/
  iter : ∃ chunks, a.iter = some chunks ∧ (∀ chunk ∈ chunks, chunk.isEmpty = false) ∧
    chunks.IsChain fun x y => ¬(x.isGap = true ∧ y.isGap = true)
  /-- Appending concatenates, and leaves nothing. -/
  append : ∀ b : RawChunks, b.Reachable → a.total + b.total < 2^64 →
    ∃ p q, a.placed = some p ∧ b.placed = some q ∧ (a.append b).1.placed = some (p ++ q) ∧
      (a.append b).2.isEmpty = true
  /-- Dropping `n` bytes turns the positions up to the last of them into one gap, and keeps the
  number of positions and each position after that. -/
  dropFront : ∀ n, ∃ p p', a.placed = some p ∧ (a.dropFront n).placed = some p' ∧
    p'.length = p.length ∧
    (∀ i < p.length, p'[i]? =
      if (p.take i).countP Option.isSome < min n a.bytes.length then some none else p[i]?) ∧
    (0 < min n a.bytes.length → ∃ k rest, (a.dropFront n).iter = some (.gap k :: rest) ∧
      ∀ i < p.length, (p.take i).countP Option.isSome < min n a.bytes.length → i < k)
  append_assoc : ∀ b c : RawChunks, b.Reachable → c.Reachable → a.total + b.total + c.total < 2^64 →
    ((a.append b).1.append c).1 = (a.append (b.append c).1).1

theorem lawful_raw {c : StreamChunks} (hc : c.placed.length < 2^64) : c.raw.Lawful where
  marks := ⟨c.marked.1, fun g hg => ⟨(c.marked.2 g hg).2, (c.marked.2 g hg).1⟩⟩
  iter := ⟨c.iter, iter_raw c, StreamChunks.walk_proper c.ahead_zero⟩
  append b hb hlen := by
    obtain ⟨d, rfl, -⟩ := hb.exists_raw
    obtain ⟨hlf, hrg⟩ := raw_append hlen
    refine ⟨c.placed, d.placed, placed_raw c, placed_raw d, ?_, ?_⟩
    · rw [hlf, placed_raw, StreamChunks.placed_append]
    · rw [hrg]
      rfl
  dropFront n := by
    have hdr := raw_dropFront (by rwa [total_raw]) n
    refine ⟨c.placed, (c.dropFront n).placed, placed_raw c, ?_,
      c.length_placed_dropFront n, fun i hi => c.getElem?_placed_dropFront n i hi, fun hpos => ?_⟩
    · rw [hdr, placed_raw]
    · obtain ⟨rest, hrs⟩ := StreamChunks.iter_dropFront hpos
      refine ⟨c.frontOf n, rest, ?_, fun i hi hlt => ?_⟩
      · rw [hdr, iter_raw, hrs]
      · -- past the front there are at least as many bytes before
        by_contra hle
        have hmn : (c.placed.take (c.frontOf n)).countP isSome ≤
            (c.placed.take i).countP isSome :=
          (take_sublist_take_left (not_lt.mp hle)).countP_le
        rw [c.countP_take_frontOf n] at hmn
        exact absurd hlt (not_lt.mpr hmn)
  append_assoc b e hb he hlen := by
    obtain ⟨d, rfl, -⟩ := hb.exists_raw
    obtain ⟨e, rfl, -⟩ := he.exists_raw
    have hcd : (c.raw.append d.raw).1 = (c.append d).1.raw := (raw_append (by omega)).1
    have hde : (d.raw.append e.raw).1 = (d.append e).1.raw := (raw_append (by omega)).1
    rw [total_raw, total_raw, total_raw] at hlen
    rw [hcd, hde, (raw_append (by simp; omega)).1, (raw_append (by simp; omega)).1,
      StreamChunks.append_assoc]

/-- Every value that the operations build obeys the laws. -/
theorem chunks_algebra {a : RawChunks} (h : a.Reachable) : a.Lawful := by
  obtain ⟨c, rfl, hc⟩ := h.exists_raw
  exact lawful_raw hc

/-- Two bytes, a gap and a byte, of which the first is dropped. -/
theorem chunks_algebra_dropped :
    ((((new.pushData [1, 2]).pushGap 3).pushData [4]).dropFront 1).Reachable ∧
      ((((new.pushData [1, 2]).pushGap 3).pushData [4]).dropFront 1).Lawful := by
  have h : ((((new.pushData [1, 2]).pushGap 3).pushData [4]).dropFront 1).Reachable :=
    .dropFront (.pushData (.pushGap (.pushData .new _ (by decide)) _ (by decide)) _ (by decide)) _
  exact ⟨h, chunks_algebra h⟩

end RawChunks

end Flowscope
