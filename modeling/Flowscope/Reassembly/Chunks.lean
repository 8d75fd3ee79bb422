import Flowscope.Reassembly.Basic

/-!
# Reassembled output

`StreamChunks` of `src/reassembler.rs`: in-order bytes, the marks of the gaps between them, and an
optional stop. The marks lie in stream order, at different places, inside the bytes, and none is
empty; `marked` carries that, so that every value the crate can build is a value here and no other.

`StreamChunks.placed` is what the output means: for every position of the stream, the byte there or
`none` for a byte that is missing. Every operation is characterised by what it does to `placed`:
pushing and appending concatenate (`placed_pushData`, `placed_pushGap`, `placed_append`), and
dropping from the front hides a front part without moving the rest (`placed_dropFront`).
-/

namespace Flowscope

open List

/-- `len` bytes are missing right before the data byte at index `at_`. -/
structure GapMark where
  /-- The index in the data bytes. -/
  at_ : ℕ
  /-- The number of missing bytes. -/
  len : ℕ
deriving DecidableEq, Repr

/-- Gap marks in stream order, at different places up to `n`, none of them empty. -/
def Marks (n : ℕ) (gaps : List GapMark) : Prop :=
  gaps.Pairwise (fun g h => g.at_ < h.at_) ∧ ∀ g ∈ gaps, g.at_ ≤ n ∧ 0 < g.len

/-- Add a mark at or after the last one, joining it when the place is the same. -/
def pushMark (gaps : List GapMark) (at_ len : ℕ) : List GapMark :=
  match gaps.getLast? with
  | some last =>
    if last.at_ = at_ then gaps.dropLast ++ [⟨last.at_, last.len + len⟩] else gaps ++ [⟨at_, len⟩]
  | none => [⟨at_, len⟩]

theorem Marks.mono {n m : ℕ} {gaps : List GapMark} (h : Marks n gaps) (hnm : n ≤ m) :
    Marks m gaps :=
  ⟨h.1, fun g hg => ⟨(h.2 g hg).1.trans hnm, (h.2 g hg).2⟩⟩

/-- A mark is added at the end, or joins the last one; the marks before it are kept. -/
theorem pushMark_cases (gaps : List GapMark) (at_ len : ℕ) :
    (pushMark gaps at_ len = gaps ++ [⟨at_, len⟩] ∧ ∀ last, gaps.getLast? = some last →
        last.at_ ≠ at_) ∨
      ∃ init m, gaps = init ++ [⟨at_, m⟩] ∧ pushMark gaps at_ len = init ++ [⟨at_, m + len⟩] := by
  unfold pushMark
  cases h : gaps.getLast? with
  | none => exact .inl (by simp [getLast?_eq_none_iff.mp h])
  | some last =>
    obtain ⟨init, rfl⟩ := getLast?_eq_some_iff.mp h
    dsimp only
    split_ifs with hat
    · exact .inr ⟨init, last.len, by rw [← hat], by simp [← hat]⟩
    · refine .inl ⟨rfl, fun last' h' => ?_⟩
      rw [← Option.some.inj h']
      exact hat

/-- Marks whose last one is not at `at_`, and which lie up to it, lie strictly before it. -/
theorem Marks.lt_of_last_ne {n at_ : ℕ} {gaps : List GapMark} (h : Marks n gaps) (hn : n ≤ at_)
    (hls : ∀ last, gaps.getLast? = some last → last.at_ ≠ at_) : ∀ g ∈ gaps, g.at_ < at_ := by
  intro g hg
  cases hl : gaps.getLast? with
  | none => simp [getLast?_eq_none_iff.mp hl] at hg
  | some last =>
    obtain ⟨init, rfl⟩ := getLast?_eq_some_iff.mp hl
    have hle : last.at_ < at_ := by
      have := (h.2 last (by simp)).1
      have := hls last hl
      omega
    rcases mem_append.mp hg with hg | hg
    · exact ((pairwise_append.mp h.1).2.2 g hg last (by simp)).trans hle
    · rwa [mem_singleton.mp hg]

theorem Marks.push {n at_ len : ℕ} {gaps : List GapMark} (h : Marks n gaps) (hn : n ≤ at_)
    (hlen : 0 < len) : Marks at_ (pushMark gaps at_ len) := by
  rcases pushMark_cases gaps at_ len with ⟨heq, hls⟩ | ⟨init, m, rfl, heq⟩
  · have hlt := h.lt_of_last_ne hn hls
    rw [heq]
    refine ⟨pairwise_append.mpr ⟨h.1, pairwise_singleton _ _, ?_⟩, ?_⟩
    · intro g hg g' hg'
      rw [mem_singleton.mp hg']
      exact hlt g hg
    · intro g hg
      rcases mem_append.mp hg with hg | hg
      · exact ⟨(hlt g hg).le, (h.2 g hg).2⟩
      · rw [mem_singleton.mp hg]
        exact ⟨le_rfl, hlen⟩
  · rw [heq]
    obtain ⟨hin, -, hls⟩ := pairwise_append.mp h.1
    refine ⟨pairwise_append.mpr ⟨hin, pairwise_singleton _ _, ?_⟩, ?_⟩
    · intro g hg g' hg'
      rw [mem_singleton.mp hg']
      exact hls g hg ⟨at_, m⟩ (by simp)
    · intro g hg
      rcases mem_append.mp hg with hg | hg
      · have := h.2 g (by simp [hg])
        exact ⟨this.1.trans hn, this.2⟩
      · rw [mem_singleton.mp hg]
        exact ⟨le_rfl, by positivity⟩

/-- Marks of a continuation, shifted behind the marks before it. -/
theorem Marks.foldl_push {base p n : ℕ} {gaps l : List GapMark} (h : Marks (base + p) gaps)
    (hl : Marks n l) (hp : ∀ g ∈ l, p ≤ g.at_) (hpn : p ≤ n) :
    Marks (base + n) (l.foldl (fun gs g => pushMark gs (base + g.at_) g.len) gaps) := by
  induction l generalizing p gaps with
  | nil => exact h.mono (by omega)
  | cons g l ih =>
    obtain ⟨hg, hl'⟩ := pairwise_cons.mp hl.1
    have hgp := hp g (by simp)
    have hgn := hl.2 g (by simp)
    refine ih (h.push (by omega) hgn.2) ⟨hl', fun g' hg' => hl.2 g' (by simp [hg'])⟩
      (fun g' hg' => (hg g' hg').le) hgn.1

/-- Marks past `n`, with the first `n` data bytes gone and a mark in their place. -/
theorem Marks.dropFront {n m len : ℕ} {gaps : List GapMark} (h : Marks m gaps) (hlen : 0 < len) :
    Marks (m - n) (⟨0, len⟩ ::
      (gaps.filter fun g => n < g.at_).map fun g => ⟨g.at_ - n, g.len⟩) := by
  refine ⟨pairwise_cons.mpr ⟨?_, ?_⟩, ?_⟩
  · intro g hg
    obtain ⟨g', hg', rfl⟩ := mem_map.mp hg
    have : n < g'.at_ := by simpa using (mem_filter.mp hg').2
    dsimp only
    omega
  · refine pairwise_map.mpr ?_
    refine (h.1.filter fun g => decide (n < g.at_)).imp_of_mem ?_
    intro g g' hg hg' hlt
    have : n < g.at_ := by simpa using (mem_filter.mp hg).2
    dsimp only
    omega
  · intro g hg
    rcases mem_cons.mp hg with rfl | hg
    · exact ⟨Nat.zero_le _, hlen⟩
    · obtain ⟨g', hg', rfl⟩ := mem_map.mp hg
      have := h.2 g' (mem_filter.mp hg').1
      dsimp only
      omega

/-- In-order bytes, the gaps between them, and a stop. -/
structure StreamChunks where
  /-- The data bytes. -/
  bytes : List UInt8
  /-- The gap marks. -/
  gaps : List GapMark
  /-- Why the stream stopped, if it did. -/
  stop : Option ReassemblyStop
  /-- The marks are in order and inside the bytes. -/
  marked : Marks bytes.length gaps

/-- One element of a walk over `StreamChunks`. -/
inductive Chunk where
  /-- In-order bytes. -/
  | data (d : List UInt8)
  /-- This many bytes are missing. -/
  | gap (n : ℕ)
deriving DecidableEq, Repr

namespace StreamChunks

instance : DecidableEq StreamChunks := fun c d =>
  decidable_of_iff (c.bytes = d.bytes ∧ c.gaps = d.gaps ∧ c.stop = d.stop)
    (by cases c; cases d; simp)

/-- An empty value. -/
def new : StreamChunks := ⟨[], [], none, List.Pairwise.nil, by simp⟩

instance : Inhabited StreamChunks := ⟨new⟩

def isEmpty (c : StreamChunks) : Bool := c.bytes.isEmpty && c.gaps.isEmpty && c.stop.isNone

/-- The number of data bytes. -/
def len (c : StreamChunks) : ℕ := c.bytes.length

/-- No data bytes; there may be gaps. -/
def isEmptyData (c : StreamChunks) : Bool := c.bytes.isEmpty

/-- The total of the gaps. -/
def gapBytes (c : StreamChunks) : ℕ := (c.gaps.map GapMark.len).sum

def pushData (c : StreamChunks) (data : List UInt8) : StreamChunks :=
  ⟨c.bytes ++ data, c.gaps, c.stop, c.marked.mono (by simp)⟩

/-- Append owned bytes. The program takes the buffer over when it holds no data, which gives the
same bytes. -/
def pushOwned (c : StreamChunks) (data : List UInt8) : StreamChunks :=
  if h : c.bytes = [] then ⟨data, c.gaps, c.stop, c.marked.mono (by simp [h])⟩ else c.pushData data

/-- Record that `len` bytes are missing at the end. -/
def pushGap (c : StreamChunks) (len : ℕ) : StreamChunks :=
  if h : len = 0 then c
  else ⟨c.bytes, pushMark c.gaps c.bytes.length len, c.stop,
    c.marked.push le_rfl (Nat.pos_of_ne_zero h)⟩

/-- Mark the stream as stopped. The first reason wins. -/
def setStop (c : StreamChunks) (stop : ReassemblyStop) : StreamChunks :=
  { c with stop := c.stop.or (some stop) }

/-- Move everything from `other` onto the end of `c`. The second component is what is left of
`other`. -/
def append (c other : StreamChunks) : StreamChunks × StreamChunks :=
  let moved : StreamChunks :=
    if h : c.bytes = [] ∧ c.gaps = [] then
      ⟨other.bytes, other.gaps, c.stop, other.marked⟩
    else
      ⟨c.bytes ++ other.bytes,
        other.gaps.foldl (fun gs g => pushMark gs (c.bytes.length + g.at_) g.len) c.gaps, c.stop,
        by
          rw [List.length_append]
          exact c.marked.foldl_push (p := 0) other.marked (fun _ _ => Nat.zero_le _)
            (Nat.zero_le _)⟩
  (match other.stop with
    | some stop => moved.setStop stop
    | none => moved, new)

/-- Turn the first `n` data bytes, with the gaps up to them, into one gap. -/
def dropFront (c : StreamChunks) (n : ℕ) : StreamChunks :=
  let n := min n c.bytes.length
  if h : n = 0 then c
  else
    let front := n + ((c.gaps.filter fun g => g.at_ ≤ n).map GapMark.len).sum
    ⟨c.bytes.drop n,
      ⟨0, front⟩ :: (c.gaps.filter fun g => n < g.at_).map fun g => ⟨g.at_ - n, g.len⟩, c.stop, by
        rw [List.length_drop]
        exact c.marked.dropFront (by omega)⟩

/-- Take the data bytes out, with the gaps and the stop discarded. The second component is what is
left. -/
def takeBytes (c : StreamChunks) : List UInt8 × StreamChunks := (c.bytes, new)

/-- The walk from data index `pos`, where the bytes `rest` and the marks `gaps` are left. -/
def walk : ℕ → List UInt8 → List GapMark → List Chunk
  | _, rest, [] => if rest = [] then [] else [.data rest]
  | pos, rest, g :: gs =>
    let upTo := rest.take (g.at_ - pos)
    (if upTo = [] then [] else [.data upTo]) ++
      .gap g.len :: walk g.at_ (rest.drop (g.at_ - pos)) gs

def iter (c : StreamChunks) : List Chunk := walk 0 c.bytes c.gaps

end StreamChunks

/-- What a chunk says of the positions that it covers. -/
def Chunk.placed : Chunk → List (Option UInt8)
  | .data d => d.map some
  | .gap n => List.replicate n none

namespace StreamChunks

/-- What the walk from data index `pos` says of the positions from there on. -/
def placedFrom (pos : ℕ) (rest : List UInt8) (gaps : List GapMark) : List (Option UInt8) :=
  (walk pos rest gaps).flatMap Chunk.placed

/-- For each position from the start of the output, the byte there, or `none` where it is
missing. -/
def placed (c : StreamChunks) : List (Option UInt8) := c.iter.flatMap Chunk.placed

theorem placedFrom_nil (pos : ℕ) (rest : List UInt8) : placedFrom pos rest [] = rest.map some := by
  rcases rest with - | ⟨b, rest⟩ <;> simp [placedFrom, walk, Chunk.placed]

theorem placedFrom_cons (pos : ℕ) (rest : List UInt8) (g : GapMark) (gs : List GapMark) :
    placedFrom pos rest (g :: gs) = (rest.take (g.at_ - pos)).map some ++
      (List.replicate g.len none ++ placedFrom g.at_ (rest.drop (g.at_ - pos)) gs) := by
  simp only [placedFrom, walk, flatMap_append, flatMap_cons, Chunk.placed]
  split_ifs with h
  · simp [h]
  · simp [Chunk.placed]

/-- The marks of a walk that has come to `pos`, with `n` bytes left: they lie between the two. -/
def Ahead (pos n : ℕ) (gaps : List GapMark) : Prop :=
  Marks (pos + n) gaps ∧ ∀ g ∈ gaps, pos ≤ g.at_

variable (c : StreamChunks) {pos n : ℕ} (data : List UInt8) (stop : ReassemblyStop)
  {rest : List UInt8} {gaps : List GapMark}

theorem ahead_zero : Ahead 0 c.bytes.length c.gaps :=
  ⟨by simpa using c.marked, fun _ _ => Nat.zero_le _⟩

/-- The walk over the first mark: it lies ahead, and so do the marks after it. -/
theorem Ahead.tail {g : GapMark} {gs : List GapMark} (h : Ahead pos n (g :: gs)) :
    pos ≤ g.at_ ∧ g.at_ - pos ≤ n ∧ Ahead g.at_ (n - (g.at_ - pos)) gs := by
  obtain ⟨hg, hgs⟩ := pairwise_cons.mp h.1.1
  have hpos := h.2 g (by simp)
  have hn := (h.1.2 g (by simp)).1
  refine ⟨hpos, by omega, ⟨hgs, fun g' hg' => ?_⟩, fun g' hg' => (hg g' hg').le⟩
  have := h.1.2 g' (by simp [hg'])
  omega

/-- Data added at the end comes last in the walk. -/
theorem placedFrom_append (h : Ahead pos rest.length gaps) (d : List UInt8) :
    placedFrom pos (rest ++ d) gaps = placedFrom pos rest gaps ++ d.map some := by
  induction gaps generalizing pos rest with
  | nil => simp [placedFrom_nil]
  | cons g gs ih =>
    obtain ⟨hpos, hn, htl⟩ := h.tail
    rw [placedFrom_cons, placedFrom_cons, take_append_of_le_length hn,
      drop_append_of_le_length hn, ih (by rwa [length_drop])]
    simp only [append_assoc]

/-- A mark at the end comes last in the walk. -/
theorem placedFrom_mark (h : Ahead pos rest.length gaps) (hn : n = pos + rest.length) (len : ℕ) :
    placedFrom pos rest (gaps ++ [⟨n, len⟩]) =
      placedFrom pos rest gaps ++ List.replicate len none := by
  induction gaps generalizing pos rest with
  | nil => simp [placedFrom_nil, placedFrom_cons, hn]
  | cons g gs ih =>
    obtain ⟨hpos, hlen, htl⟩ := h.tail
    rw [cons_append, placedFrom_cons, placedFrom_cons,
      ih (by rwa [length_drop]) (by rw [length_drop]; omega)]
    simp only [append_assoc]

theorem placedFrom_pushMark (h : Marks rest.length gaps) (hn : n = rest.length) (len : ℕ) :
    placedFrom 0 rest (pushMark gaps n len) =
      placedFrom 0 rest gaps ++ List.replicate len none := by
  have hah : ∀ {gs : List GapMark}, Marks rest.length gs → Ahead 0 rest.length gs :=
    fun hgs => ⟨by simpa using hgs, fun _ _ => Nat.zero_le _⟩
  rcases pushMark_cases gaps n len with ⟨heq, -⟩ | ⟨init, m, rfl, heq⟩
  · rw [heq, placedFrom_mark (hah h) (by omega)]
  · have hin : Marks rest.length init :=
      ⟨(pairwise_append.mp h.1).1, fun g hg => h.2 g (by simp [hg])⟩
    rw [heq, placedFrom_mark (hah hin) (by omega), placedFrom_mark (hah hin) (by omega),
      append_assoc, replicate_append_replicate]

/-- The marks of a continuation, pushed behind the marks before it, give the one walk after the
other. -/
theorem placedFrom_foldl_pushMark {base : ℕ} {bytes : List UInt8}
    {l : List GapMark} (h : Marks bytes.length gaps) (hbs : bytes.length = base + pos)
    (hl : Ahead pos rest.length l) :
    placedFrom 0 (bytes ++ rest)
        (l.foldl (fun gs g => pushMark gs (base + g.at_) g.len) gaps) =
      placedFrom 0 bytes gaps ++ placedFrom pos rest l := by
  induction l generalizing pos bytes rest gaps with
  | nil =>
    rw [foldl_nil, placedFrom_nil, placedFrom_append ⟨by simpa using h, fun _ _ => Nat.zero_le _⟩]
  | cons g gs ih =>
    obtain ⟨hpos, hlen, htl⟩ := hl.tail
    have hg := (hl.1.2 g (by simp)).2
    -- the data up to the mark, then the mark itself
    have hto : (bytes ++ rest.take (g.at_ - pos)).length = base + g.at_ := by
      rw [length_append, length_take]
      omega
    have hmr : Marks (bytes ++ rest.take (g.at_ - pos)).length gaps := h.mono (by simp)
    have hps : Marks (bytes ++ rest.take (g.at_ - pos)).length
        (pushMark gaps (base + g.at_) g.len) := by
      rw [hto] at hmr ⊢
      exact hmr.push le_rfl hg
    have hrs : Ahead g.at_ (rest.drop (g.at_ - pos)).length gs := by rwa [length_drop]
    have key := ih hps hto hrs
    rw [append_assoc, take_append_drop] at key
    rw [foldl_cons, key, placedFrom_pushMark hmr hto.symm,
      placedFrom_append ⟨by simpa using h, fun _ _ => Nat.zero_le _⟩, placedFrom_cons]
    simp only [append_assoc]

theorem placed_eq : c.placed = placedFrom 0 c.bytes c.gaps := rfl

@[simp]
theorem placed_new : new.placed = [] := rfl

@[simp]
theorem placed_setStop : (c.setStop stop).placed = c.placed := rfl

@[simp]
theorem placed_pushData : (c.pushData data).placed = c.placed ++ data.map some :=
  placedFrom_append c.ahead_zero data

theorem pushOwned_eq : c.pushOwned data = c.pushData data := by
  unfold pushOwned
  split_ifs with h
  · simp [pushData, h]
  · rfl

@[simp]
theorem placed_pushGap (n : ℕ) : (c.pushGap n).placed = c.placed ++ List.replicate n none := by
  unfold pushGap
  split_ifs with h
  · simp [h]
  · exact placedFrom_pushMark c.marked rfl n

theorem append_snd (c d : StreamChunks) : (c.append d).2 = new := rfl

/-- The walk over chunks with others moved behind them. -/
@[simp]
theorem placed_append (c d : StreamChunks) : (c.append d).1.placed = c.placed ++ d.placed := by
  have hmv : placedFrom 0 (c.bytes ++ d.bytes)
      (d.gaps.foldl (fun gs g => pushMark gs (c.bytes.length + g.at_) g.len) c.gaps) =
        c.placed ++ d.placed :=
    placedFrom_foldl_pushMark c.marked rfl d.ahead_zero
  by_cases h : c.bytes = [] ∧ c.gaps = []
  · have hc : c.placed = [] := by rw [placed_eq, h.1, h.2, placedFrom_nil, map_nil]
    unfold append
    cases d.stop <;> simp [h, hc, placed_eq, setStop]
  · unfold append
    rw [← hmv]
    cases d.stop <;> simp only [h] <;> rfl

theorem drop_add_append {α : Type*} {l1 l2 : List α} {a m : ℕ} (h : l1.length = a) :
    (l1 ++ l2).drop (a + m) = l2.drop m := by
  rw [← h, drop_length_add_append]

/-- The walk without the first bytes and the marks up to them. -/
theorem placedFrom_drop
    (h : Ahead pos rest.length gaps) (hpos : pos ≤ n) (hn : n ≤ pos + rest.length) :
    placedFrom n (rest.drop (n - pos)) (gaps.filter fun g => n < g.at_) =
      (placedFrom pos rest gaps).drop
        (n - pos + ((gaps.filter fun g => g.at_ ≤ n).map GapMark.len).sum) := by
  induction gaps generalizing pos rest with
  | nil => simp [placedFrom_nil]
  | cons g gs ih =>
    obtain ⟨hg, hlen, htl⟩ := h.tail
    by_cases hgn : g.at_ ≤ n
    · have key := ih (by rwa [length_drop]) hgn (by rw [length_drop]; omega)
      rw [drop_drop, show g.at_ - pos + (n - g.at_) = n - pos by omega] at key
      have htk : ((rest.take (g.at_ - pos)).map (some : UInt8 → Option UInt8)).length
          = g.at_ - pos := by simp [hlen]
      simp only [filter_cons, hgn, not_lt.mpr hgn, decide_true, decide_false, if_true,
        Bool.false_eq_true, if_false, map_cons, sum_cons, key, placedFrom_cons]
      rw [show n - pos + (g.len + ((gs.filter fun g => g.at_ ≤ n).map GapMark.len).sum) =
          g.at_ - pos + (g.len + (n - g.at_ + ((gs.filter fun g => g.at_ ≤ n).map
            GapMark.len).sum)) by omega,
        drop_add_append htk, drop_add_append (by simp)]
    · -- no mark is dropped: the marks after `g` lie further on
      have hall : ∀ g' ∈ g :: gs, n < g'.at_ := by
        intro g' hg'
        rcases mem_cons.mp hg' with rfl | hg'
        · omega
        · have := htl.2 g' hg'
          omega
      have hnn : (g :: gs).filter (fun g => decide (g.at_ ≤ n)) = [] :=
        filter_eq_nil_iff.mpr fun g' hg' => by simpa using hall g' hg'
      rw [filter_eq_self.mpr (fun g' hg' => by simpa using hall g' hg'), hnn,
        placedFrom_cons, placedFrom_cons, map_nil, sum_nil, Nat.add_zero,
        drop_append_of_le_length (by simp; omega), ← map_drop, drop_drop,
        drop_take, show n - pos + (g.at_ - n) = g.at_ - pos by omega,
        show g.at_ - pos - (n - pos) = g.at_ - n by omega]

/-- The walk does not depend on where the data indices start. -/
theorem placedFrom_shift (h : ∀ g ∈ gaps, n ≤ g.at_) :
    placedFrom pos rest (gaps.map fun g => ⟨g.at_ - n, g.len⟩) =
      placedFrom (pos + n) rest gaps := by
  induction gaps generalizing pos rest with
  | nil => simp [placedFrom_nil]
  | cons g gs ih =>
    have hg := h g (by simp)
    rw [map_cons, placedFrom_cons, placedFrom_cons, ih (fun g' hg' => h g' (by simp [hg']))]
    rw [show g.at_ - n - pos = g.at_ - (pos + n) by omega, Nat.sub_add_cancel hg]

/-- The number of positions that `dropFront` turns into a gap. -/
def frontOf (c : StreamChunks) (n : ℕ) : ℕ :=
  let n := min n c.bytes.length
  if n = 0 then 0 else n + ((c.gaps.filter fun g => g.at_ ≤ n).map GapMark.len).sum

/-- Dropping data from the front turns the first positions into a gap and keeps the others. -/
theorem placed_dropFront (n : ℕ) :
    (c.dropFront n).placed =
      List.replicate (c.frontOf n) none ++ c.placed.drop (c.frontOf n) := by
  unfold dropFront frontOf
  dsimp only
  split_ifs with h
  · simp
  · rw [placed_eq, placed_eq, placedFrom_cons]
    simp only [Nat.sub_zero, take_zero, drop_zero, map_nil, nil_append]
    rw [placedFrom_shift (fun g hg => by
      have : min n c.bytes.length < g.at_ := by simpa using (mem_filter.mp hg).2
      exact this.le), Nat.zero_add]
    have key := placedFrom_drop (n := min n c.bytes.length) c.ahead_zero (Nat.zero_le _) (by omega)
    rw [Nat.sub_zero] at key
    rw [key]

/-! Lengths: each operation changes the data length and the gap total by the same amounts as the
stream position. -/

@[simp]
theorem gapBytes_new : new.gapBytes = 0 := rfl

@[simp]
theorem len_new : new.len = 0 := rfl

@[simp]
theorem len_pushData : (c.pushData data).len = c.len + data.length := by simp [len, pushData]

@[simp]
theorem gapBytes_pushData : (c.pushData data).gapBytes = c.gapBytes := rfl

@[simp]
theorem len_pushGap (n : ℕ) : (c.pushGap n).len = c.len := by
  unfold pushGap
  split_ifs <;> rfl

theorem sum_pushMark (gaps : List GapMark) (at_ n : ℕ) :
    ((pushMark gaps at_ n).map GapMark.len).sum = (gaps.map GapMark.len).sum + n := by
  rcases pushMark_cases gaps at_ n with ⟨heq, -⟩ | ⟨init, m, rfl, heq⟩
  · simp [heq]
  · simp only [heq, map_append, map_cons, map_nil, sum_append, sum_singleton]
    omega

@[simp]
theorem gapBytes_pushGap (n : ℕ) : (c.pushGap n).gapBytes = c.gapBytes + n := by
  unfold pushGap
  split_ifs with h
  · omega
  · exact sum_pushMark _ _ _

@[simp]
theorem len_setStop : (c.setStop stop).len = c.len := rfl

@[simp]
theorem gapBytes_setStop : (c.setStop stop).gapBytes = c.gapBytes := rfl

@[simp]
theorem len_append (c d : StreamChunks) : (c.append d).1.len = c.len + d.len := by
  unfold append
  cases d.stop <;> by_cases h : c.bytes = [] ∧ c.gaps = [] <;> simp [h, len, setStop]

theorem sum_foldl_pushMark (base : ℕ) (gaps l : List GapMark) :
    ((l.foldl (fun gs g => pushMark gs (base + g.at_) g.len) gaps).map GapMark.len).sum =
      (gaps.map GapMark.len).sum + (l.map GapMark.len).sum := by
  induction l generalizing gaps with
  | nil => simp
  | cons g l ih =>
    rw [foldl_cons, ih, sum_pushMark, map_cons, sum_cons, Nat.add_assoc]

@[simp]
theorem gapBytes_append (c d : StreamChunks) :
    (c.append d).1.gapBytes = c.gapBytes + d.gapBytes := by
  unfold append
  cases d.stop <;> by_cases h : c.bytes = [] ∧ c.gaps = [] <;>
    simp [h, gapBytes, setStop, sum_foldl_pushMark]

@[simp]
theorem len_dropFront (n : ℕ) : (c.dropFront n).len = c.len - n := by
  unfold dropFront
  dsimp only
  split_ifs with h <;> simp only [len, length_drop] <;> omega

theorem sum_filter_add_sum_filter (n : ℕ) (gaps : List GapMark) :
    ((gaps.filter fun g => g.at_ ≤ n).map GapMark.len).sum +
        ((gaps.filter fun g => n < g.at_).map GapMark.len).sum = (gaps.map GapMark.len).sum := by
  induction gaps with
  | nil => rfl
  | cons g gaps ih =>
    by_cases hg : g.at_ ≤ n
    · simp only [filter_cons, hg, not_lt.mpr hg, decide_true, decide_false, if_true,
        Bool.false_eq_true, if_false, map_cons, sum_cons]
      omega
    · simp only [filter_cons, hg, not_le.mp hg, decide_true, decide_false, if_true,
        Bool.false_eq_true, if_false, map_cons, sum_cons]
      omega

/-- Every data byte dropped from the front is in a mark. -/
@[simp]
theorem gapBytes_dropFront (n : ℕ) : (c.dropFront n).gapBytes = c.gapBytes + min n c.len := by
  unfold dropFront
  dsimp only
  split_ifs with h
  · simp [len, h]
  · have hsl := sum_filter_add_sum_filter (min n c.bytes.length) c.gaps
    have hcm : (GapMark.len ∘ fun g => (⟨g.at_ - min n c.bytes.length, g.len⟩ : GapMark)) =
        GapMark.len := rfl
    simp only [gapBytes, map_cons, sum_cons, map_map, len, hcm]
    omega

/-- The positions are those of the data and those of the gaps. -/
theorem length_placed : c.placed.length = c.len + c.gapBytes := by
  have key : ∀ {pos : ℕ} {rest : List UInt8} {gaps : List GapMark}, Ahead pos rest.length gaps →
      (placedFrom pos rest gaps).length = rest.length + (gaps.map GapMark.len).sum := by
    intro pos rest gaps h
    induction gaps generalizing pos rest with
    | nil => simp [placedFrom_nil]
    | cons g gs ih =>
      obtain ⟨hpos, hlen, htl⟩ := h.tail
      rw [placedFrom_cons, length_append, length_append, ih (by rwa [length_drop])]
      simp only [length_map, length_take, length_replicate, length_drop, map_cons, sum_cons]
      omega
  exact key c.ahead_zero

/-- What is dropped from the front is a gap of the same length. -/
theorem length_placed_dropFront (n : ℕ) : (c.dropFront n).placed.length = c.placed.length := by
  rw [length_placed, length_placed, len_dropFront, gapBytes_dropFront]
  omega

/-- The data bytes are the positions with a byte. -/
theorem countP_placed : c.placed.countP Option.isSome = c.len := by
  have key : ∀ (pos : ℕ) (rest : List UInt8) (gaps : List GapMark),
      (placedFrom pos rest gaps).countP Option.isSome = rest.length := by
    intro pos rest gaps
    induction gaps generalizing pos rest with
    | nil => simp [placedFrom_nil]
    | cons g gs ih =>
      rw [placedFrom_cons, countP_append, countP_append, ih]
      simp only [countP_map, countP_replicate, Option.isSome_none, Bool.false_eq_true,
        if_false, length_drop]
      rw [countP_eq_length.mpr (by simp), length_take]
      omega
  exact key 0 c.bytes c.gaps

/-- Without data, every position is missing. -/
theorem placed_of_len_eq_zero {c : StreamChunks} (h : c.len = 0) :
    c.placed = List.replicate c.placed.length none := by
  rw [← countP_placed, countP_eq_zero] at h
  exact eq_replicate_of_mem fun x hx => Option.not_isSome_iff_eq_none.mp (h x hx)

end StreamChunks

end Flowscope
