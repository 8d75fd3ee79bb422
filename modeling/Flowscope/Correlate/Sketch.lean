import Flowscope.Lib.Cells

/-!
# Sketches

`CountMinSketch`, `BloomFilter`, `CountingBloomFilter` and `HyperLogLog` (`src/correlate/count_min.rs`,
`src/correlate/bloom.rs`, `src/correlate/counting_bloom.rs`, `src/correlate/hyperloglog.rs`) are rows of
cells: counters that saturate, bits, and registers that keep the greatest value. The hash of an item says
which cells it hits. The words into which bits and small counters are packed are modelled as rows.

An instance fed a sequence of observations is the same as the merge of instances fed the shards of the
sequence, in any order (`eval_eq_feed`).
-/

namespace Flowscope.Correlate

open List Cells Sharding

variable {K : Type}

abbrev Counter (max : ℕ) : Type := Fin (max + 1)

/-- Addition that stays at the greatest value. -/
def Counter.saturatingAdd {max : ℕ} (a b : Counter max) : Counter max :=
  ⟨min (a.val + b.val) max, Nat.lt_succ_of_le (min_le_right _ _)⟩

instance (max : ℕ) : Std.Commutative (@Counter.saturatingAdd max) :=
  ⟨fun a b => by
    apply Fin.ext
    dsimp only [Counter.saturatingAdd]
    omega⟩

instance (max : ℕ) : Std.Associative (@Counter.saturatingAdd max) :=
  ⟨fun a b c => by
    apply Fin.ext
    dsimp only [Counter.saturatingAdd]
    omega⟩

theorem Counter.saturatingAdd_zero {max : ℕ} (a : Counter max) : a.saturatingAdd 0 = a := by
  have hle := Nat.le_of_lt_succ a.isLt
  apply Fin.ext
  exact min_eq_left hle

/-- The two halves of a hash, the second one odd. -/
def h1H2 (h : BitVec 64) : BitVec 32 × BitVec 32 :=
  ((h >>> 32).setWidth 32, h.setWidth 32 ||| 1)

/-- The position that hash function `i` gives. -/
def position (h : BitVec 64) (i size : ℕ) : ℕ :=
  let (h1, h2) := h1H2 h
  (h1 + BitVec.ofNat 32 i * h2).toNat % size

/-! ## Frequencies -/

structure CountMinSketch where
  depth : ℕ
  width : ℕ
  /-- The rows, one after the other. -/
  grid : List (Counter (2^32 - 1))
deriving DecidableEq

namespace CountMinSketch

def withDimensions (depth width : ℕ) : CountMinSketch :=
  let depth := max depth 1
  let width := max width 1
  ⟨depth, width, List.replicate (depth * width) 0⟩

def add (s : CountMinSketch) (h : BitVec 64) (count : Counter (2^32 - 1)) : CountMinSketch :=
  { s with
    grid := (List.range s.depth).foldl (fun grid row =>
      grid.modify (row * s.width + position h row s.width) (Counter.saturatingAdd · count)) s.grid }

def estimate (s : CountMinSketch) (h : BitVec 64) : ℕ :=
  (List.range s.depth).foldl (fun min row =>
    Min.min min (s.grid.getD (row * s.width + position h row s.width) 0).val) (2^32 - 1)

def merge (s other : CountMinSketch) : CountMinSketch :=
  { s with grid := List.zipWith Counter.saturatingAdd s.grid other.grid }

/-- An instance that was fed items with their counts. -/
def feed (hash : K → BitVec 64) (depth width : ℕ) (l : List (K × Counter (2^32 - 1))) : CountMinSketch :=
  l.foldl (fun s x => s.add (hash x.1) x.2) (.withDimensions depth width)

end CountMinSketch

/-! ## Membership -/

structure BloomFilter where
  bits : ℕ
  hashes : ℕ
  /-- The bits of the words. -/
  words : List Bool
deriving DecidableEq

namespace BloomFilter

def new (bits hashes : ℕ) : BloomFilter := ⟨bits, hashes, List.replicate bits false⟩

/-- Insert an item. Also whether one of its bits was not set. -/
def insert (f : BloomFilter) (h : BitVec 64) : BloomFilter × Bool :=
  let r := (List.range f.hashes).foldl (fun (acc : List Bool × Bool) i =>
    let bit := position h i f.bits
    if acc.1.getD bit false = false then (acc.1.set bit true, true) else acc) (f.words, false)
  ({ f with words := r.1 }, r.2)

def contains (f : BloomFilter) (h : BitVec 64) : Bool :=
  (List.range f.hashes).all fun i => f.words.getD (position h i f.bits) false

def merge (f other : BloomFilter) : BloomFilter :=
  { f with words := List.zipWith (· || ·) f.words other.words }

def feed (hash : K → BitVec 64) (bits hashes : ℕ) (l : List K) : BloomFilter :=
  l.foldl (fun f x => (f.insert (hash x)).1) (.new bits hashes)

end BloomFilter

structure CountingBloomFilter where
  cells : ℕ
  hashes : ℕ
  /-- The counters of the words. -/
  words : List (Counter 15)
deriving DecidableEq

namespace CountingBloomFilter

def new (cells hashes : ℕ) : CountingBloomFilter := ⟨cells, hashes, List.replicate cells 0⟩

/-- Insert an item. Also whether one of its cells was zero. -/
def insert (f : CountingBloomFilter) (h : BitVec 64) : CountingBloomFilter × Bool :=
  let r := (List.range f.hashes).foldl (fun (acc : List (Counter 15) × Bool) i =>
    let cell := position h i f.cells
    let v := acc.1.getD cell 0
    (if v < 15 then acc.1.set cell (v + 1) else acc.1, acc.2 || v = 0)) (f.words, false)
  ({ f with words := r.1 }, r.2)

def contains (f : CountingBloomFilter) (h : BitVec 64) : Bool :=
  (List.range f.hashes).all fun i => f.words.getD (position h i f.cells) 0 ≠ 0

/-- Take one from a cell that is below the greatest value. `none` stands for the overflow at zero. -/
def decrement (words : List (Counter 15)) (cell : ℕ) : Option (List (Counter 15)) :=
  let v := words.getD cell 0
  if v < 15 then if v = 0 then none else some (words.set cell (v - 1)) else some words

/-- Take one insertion of an item back, if all of its cells are set. -/
def remove (f : CountingBloomFilter) (h : BitVec 64) : Option (CountingBloomFilter × Bool) :=
  if f.contains h then
    ((List.range f.hashes).foldlM (fun words i => decrement words (position h i f.cells)) f.words).map
      fun words => ({ f with words }, true)
  else some (f, false)

def merge (f other : CountingBloomFilter) : CountingBloomFilter :=
  { f with words := List.zipWith Counter.saturatingAdd f.words other.words }

def feed (hash : K → BitVec 64) (cells hashes : ℕ) (l : List K) : CountingBloomFilter :=
  l.foldl (fun f x => (f.insert (hash x)).1) (.new cells hashes)

end CountingBloomFilter

/-! ## Distinct items -/

structure HyperLogLog where
  precision : ℕ
  registers : List ℕ
deriving DecidableEq

namespace HyperLogLog

def new (precision : ℕ) : HyperLogLog := ⟨precision, List.replicate (2^precision) 0⟩

/-- One more than the leading zeros of a hash after the bits that choose the register. -/
def rank (precision : ℕ) (h : BitVec 64) : ℕ :=
  let w := h <<< precision
  if w = 0 then 64 - precision + 1 else w.clz.toNat + 1

def addHash (s : HyperLogLog) (h : BitVec 64) : HyperLogLog :=
  let idx := (h >>> (64 - s.precision)).toNat
  let lz := rank s.precision h
  { s with registers := if lz > s.registers.getD idx 0 then s.registers.set idx lz else s.registers }

def merge (s other : HyperLogLog) : HyperLogLog :=
  { s with registers := List.zipWith (fun a b => if b > a then b else a) s.registers other.registers }

def feed (hash : K → BitVec 64) (precision : ℕ) (l : List K) : HyperLogLog :=
  l.foldl (fun s x => s.addHash (hash x)) (.new precision)

end HyperLogLog

/-! ## Rows of cells -/

theorem modify_eq_set {C : Type} (l : List C) (i : ℕ) (f : C → C) (d : C) :
    l.modify i f = l.set i (f (l.getD i d)) := by
  apply ext_getElem?
  intro j
  by_cases hij : i = j
  · subst hij
    by_cases hi : i < l.length
    · simp [hi]
    · simp [hi]
  · simp [hij]

theorem set_getD {C : Type} (l : List C) (i : ℕ) (d : C) : l.set i (l.getD i d) = l := by
  have hmd := modify_eq_set l i id d
  rw [modify_id] at hmd
  exact hmd.symm

/-- The first part of a fold over pairs. -/
theorem foldl_fst {α β γ : Type} {step : α × β → γ → α × β} {step' : α → γ → α}
    (h : ∀ acc x, (step acc x).1 = step' acc.1 x) (l : List γ) (acc : α × β) :
    (l.foldl step acc).1 = l.foldl step' acc.1 := by
  induction l generalizing acc with
  | nil => rfl
  | cons x l ih => rw [foldl_cons, foldl_cons, ih, h]

/-- The cells that an item hits, by the hash functions in turn. -/
def hitsOf {C : Type} (h : BitVec 64) (hashes size : ℕ) (c : C) : List (ℕ × C) :=
  (List.range hashes).map fun i => (position h i size, c)

namespace CountMinSketch

/-- The cells that an item hits, one in each row. -/
def hitsOf (depth width : ℕ) (h : BitVec 64) (count : Counter (2^32 - 1)) :
    List (ℕ × Counter (2^32 - 1)) :=
  (List.range depth).map fun row => (row * width + position h row width, count)

theorem add_mk (depth width : ℕ) (grid : List (Counter (2^32 - 1))) (h : BitVec 64)
    (count : Counter (2^32 - 1)) :
    (mk depth width grid).add h count =
      mk depth width (hits Counter.saturatingAdd grid (hitsOf depth width h count)) := by
  rw [hits, hitsOf, foldl_map]
  rfl

end CountMinSketch

namespace BloomFilter

theorem insert_mk (bits hashes : ℕ) (words : List Bool) (h : BitVec 64) :
    ((mk bits hashes words).insert h).1 =
      mk bits hashes (hits (· || ·) words (hitsOf h hashes bits true)) := by
  rw [hits, hitsOf, foldl_map]
  refine congrArg (mk bits hashes) (foldl_fst (fun acc i => ?_) (List.range hashes) (words, false))
  rw [hit, modify_eq_set _ _ _ false]
  dsimp only
  split_ifs with hbit
  · rw [Bool.or_true]
  · rw [Bool.or_true, ← Bool.eq_true_of_not_eq_false hbit, set_getD]

end BloomFilter

namespace CountingBloomFilter

theorem insert_mk (cells hashes : ℕ) (words : List (Counter 15)) (h : BitVec 64) :
    ((mk cells hashes words).insert h).1 =
      mk cells hashes (hits Counter.saturatingAdd words (hitsOf h hashes cells 1)) := by
  rw [hits, hitsOf, foldl_map]
  refine congrArg (mk cells hashes) (foldl_fst (fun acc i => ?_) (List.range hashes) (words, false))
  have hsat : ∀ v : Counter 15, v.saturatingAdd 1 = if v < 15 then v + 1 else v := by decide
  rw [hit, modify_eq_set _ _ _ 0, hsat]
  dsimp only
  split_ifs
  · rfl
  · rw [set_getD]

end CountingBloomFilter

namespace HyperLogLog

theorem addHash_mk (precision : ℕ) (registers : List ℕ) (h : BitVec 64) :
    (mk precision registers).addHash h = mk precision (hits max registers
      [((h >>> (64 - precision)).toNat, rank precision h)]) := by
  rw [addHash, hits, foldl_cons, foldl_nil, hit, modify_eq_set _ _ _ 0]
  split_ifs with hgt
  · rw [max_eq_right hgt.le]
  · rw [max_eq_left (not_lt.mp hgt), set_getD]

end HyperLogLog

/-! ## Estimates -/

namespace CountMinSketch

/-- How often an item was added. -/
def trueCount [DecidableEq K] (x : K) (l : List (K × Counter (2^32 - 1))) : ℕ :=
  (l.map fun y => if y.1 = x then y.2.val else 0).sum

/-- The value of a cell. -/
def cell (grid : List (Counter (2^32 - 1))) (j : ℕ) : ℕ := (grid.getD j 0).val

theorem cell_hit (grid : List (Counter (2^32 - 1))) {j : ℕ} (hj : j < grid.length)
    (h : ℕ × Counter (2^32 - 1)) :
    cell (hit Counter.saturatingAdd grid h) j =
      if h.1 = j then min (cell grid j + h.2.val) (2^32 - 1) else cell grid j := by
  rw [cell, cell, hit, getD_eq_getElem?_getD, getD_eq_getElem?_getD, getElem?_modify]
  have hso : grid[j]? = some (grid.get ⟨j, hj⟩) := getElem?_eq_getElem hj
  rw [hso]
  split_ifs <;> rfl

theorem cell_lt (grid : List (Counter (2^32 - 1))) (j : ℕ) : cell grid j ≤ 2^32 - 1 :=
  Nat.le_of_lt_succ (grid.getD j 0).isLt

/-- Hits only add, and a cell that is hit gets the whole count. -/
theorem le_cell_hits {grid : List (Counter (2^32 - 1))} {j : ℕ} (hj : j < grid.length)
    (hs : List (ℕ × Counter (2^32 - 1))) :
    cell grid j ≤ cell (hits Counter.saturatingAdd grid hs) j ∧
      ∀ h ∈ hs, h.1 = j →
        min (cell grid j + h.2.val) (2^32 - 1) ≤ cell (hits Counter.saturatingAdd grid hs) j := by
  induction hs generalizing grid with
  | nil => exact ⟨le_rfl, nofun⟩
  | cons x hs ih =>
    have hj' : j < (hit Counter.saturatingAdd grid x).length := by
      rwa [hit, length_modify]
    obtain ⟨hmn, hmem⟩ := ih hj'
    have hstp := cell_hit grid hj x
    have hle : cell grid j ≤ cell (hit Counter.saturatingAdd grid x) j := by
      have hlt := cell_lt grid j
      rw [hstp]
      split_ifs <;> omega
    refine ⟨hle.trans hmn, fun h hh hhj => ?_⟩
    rcases mem_cons.mp hh with rfl | hh
    · rw [if_pos hhj] at hstp
      rw [← hstp]
      exact hmn
    · exact le_trans (by omega) (hmem h hh hhj)

theorem le_foldl_min {b : ℕ} (f : ℕ → ℕ) (l : List ℕ) {a : ℕ} (ha : b ≤ a) (h : ∀ i ∈ l, b ≤ f i) :
    b ≤ l.foldl (fun m i => min m (f i)) a := by
  induction l generalizing a with
  | nil => exact ha
  | cons i l ih =>
    exact ih (le_min ha (h i mem_cons_self)) fun j hj => h j (mem_cons_of_mem i hj)

/-- The estimate of an item is no less than its count, up to the greatest value of a counter. -/
theorem le_estimate [DecidableEq K] (hash : K → BitVec 64) (depth width : ℕ)
    (l : List (K × Counter (2^32 - 1))) (x : K) :
    min (trueCount x l) (2^32 - 1) ≤ (feed hash depth width l).estimate (hash x) := by
  have hwd : 0 < max width 1 := by omega
  -- in each row, the cell of the item has the whole count
  have hcl : ∃ grid, feed hash depth width l = mk (max depth 1) (max width 1) grid ∧
      grid.length = max depth 1 * max width 1 ∧ ∀ row < max depth 1,
        min (trueCount x l) (2^32 - 1) ≤
          cell grid (row * max width 1 + position (hash x) row (max width 1)) := by
    induction l using reverseRecOn with
    | nil =>
      refine ⟨_, rfl, length_replicate, fun row _ => ?_⟩
      exact (min_le_left _ _).trans (Nat.zero_le _)
    | append_singleton l y ih =>
      obtain ⟨grid, hfd, hlen, hrw⟩ := ih
      refine ⟨hits Counter.saturatingAdd grid
        (hitsOf (max depth 1) (max width 1) (hash y.1) y.2), ?_,
        (length_hits grid _).trans hlen, fun row hrow => ?_⟩
      · rw [feed, foldl_append, ← feed, hfd]
        exact add_mk _ _ grid (hash y.1) y.2
      · have hpos : position (hash x) row (max width 1) < max width 1 := Nat.mod_lt _ hwd
        have hj : row * max width 1 + position (hash x) row (max width 1) < grid.length := by
          rw [hlen]
          calc row * max width 1 + position (hash x) row (max width 1)
              < row * max width 1 + max width 1 := by omega
            _ = (row + 1) * max width 1 := (Nat.succ_mul _ _).symm
            _ ≤ max depth 1 * max width 1 := Nat.mul_le_mul_right _ hrow
        obtain ⟨hmn, hmem⟩ := le_cell_hits hj (hitsOf (max depth 1) (max width 1) (hash y.1) y.2)
        have hct : trueCount x (l ++ [y]) = trueCount x l + if y.1 = x then y.2.val else 0 := by
          simp [trueCount]
        have hold := hrw row hrow
        rw [hct]
        by_cases hx : y.1 = x
        · subst hx
          have hhit := hmem (row * max width 1 + position (hash y.1) row (max width 1), y.2)
            (mem_map.mpr ⟨row, mem_range.mpr hrow, rfl⟩) rfl
          rw [if_pos rfl]
          dsimp only at hhit
          exact le_trans (by omega) hhit
        · rw [if_neg hx]
          exact hold.trans hmn
  obtain ⟨grid, hfd, -, hrw⟩ := hcl
  rw [hfd]
  exact le_foldl_min _ _ (min_le_right _ _) fun row hrow => hrw row (mem_range.mp hrow)

end CountMinSketch

/-! ## Deletions -/

namespace CountingBloomFilter

variable {words words' : List (Counter 15)} {count count' : ℕ → ℕ} {cells hashes : ℕ}

/-- The cells of an item, by the hash functions in turn. -/
def spots (h : BitVec 64) (hashes cells : ℕ) : List ℕ :=
  (List.range hashes).map fun i => position h i cells

/-- What a cell holds. -/
def value (words : List (Counter 15)) (j : ℕ) : ℕ := (words.getD j 0).val

/-- Each cell has its count, or has reached the greatest value. -/
def Counts (words : List (Counter 15)) (count : ℕ → ℕ) : Prop :=
  ∀ j, value words j = 15 ∨ value words j = count j

/-- No cell holds more than the greatest value. -/
theorem value_le (words : List (Counter 15)) (j : ℕ) : value words j ≤ 15 :=
  Nat.le_of_lt_succ (words.getD j 0).isLt

/-- The value of a cell after a write. -/
theorem value_set {p : ℕ} (hp : p < words.length) (v : Counter 15) (j : ℕ) :
    value (words.set p v) j = if p = j then v.val else value words j := by
  rw [value, value]
  by_cases h : p = j
  · subst h
    simp [hp]
  · simp [h]

/-- A cell that is hit counts one more. -/
theorem Counts.hit (h : Counts words count) {p : ℕ} (hp : p < words.length)
    (hct : ∀ j, count' j = (if p = j then 1 else 0) + count j) :
    Counts (words.modify p (·.saturatingAdd 1)) count' := by
  intro j
  have hj := h j
  rw [modify_eq_set _ _ _ 0, value_set hp, hct]
  split_ifs with hpj
  · subst hpj
    have hval : ((words.getD p 0).saturatingAdd 1).val = min (value words p + 1) 15 := rfl
    omega
  · omega

/-- A cell that is not zero can be taken from, and one at the greatest value stays there. -/
theorem decrement_eq_some_iff {p : ℕ} : decrement words p = some words' ↔
    value words p ≠ 0 ∧ words' = if value words p = 15 then words else words.set p (words.getD p 0 - 1) := by
  have hle := value_le words p
  have hlt : words.getD p 0 < 15 ↔ value words p ≠ 15 := by
    rw [Fin.lt_def]
    exact ⟨fun h => ne_of_lt h, fun h => lt_of_le_of_ne hle h⟩
  have hzero : words.getD p 0 = 0 ↔ value words p = 0 := Fin.ext_iff
  rw [decrement]
  simp only [hlt, hzero]
  by_cases h15 : value words p = 15
  · simp [h15, eq_comm]
  · by_cases h0 : value words p = 0
    · simp [h0]
    · simp [h15, eq_comm]

/-- One less in a cell that is taken from, unless it is at the greatest value. -/
theorem decrement_value {p : ℕ} (hp : p < words.length) (h : decrement words p = some words') :
    words'.length = words.length ∧ value words p ≠ 0 ∧
      ∀ j, value words' j = if p = j ∧ value words j ≠ 15 then value words j - 1 else value words j := by
  obtain ⟨hpos, rfl⟩ := decrement_eq_some_iff.mp h
  have hsub : (words.getD p 0 - 1).val = value words p - 1 :=
    Fin.val_sub_one_of_ne_zero fun hzero => hpos (congrArg Fin.val hzero)
  split_ifs with h15
  · refine ⟨rfl, hpos, fun j => (if_neg ?_).symm⟩
    rintro ⟨rfl, hne⟩
    exact hne h15
  · refine ⟨length_set, hpos, fun j => ?_⟩
    rw [value_set hp]
    by_cases hpj : p = j
    · subst hpj
      rw [if_pos rfl, if_pos ⟨rfl, h15⟩, hsub]
    · rw [if_neg hpj, if_neg fun h => hpj h.1]

variable {ps : List ℕ}

/-- The first of the cells counts for itself. -/
theorem count_cons_add (ps : List ℕ) (p j n : ℕ) :
    (p :: ps).count j + n = (if p = j then 1 else 0) + (ps.count j + n) := by
  rw [count_cons]
  simp only [beq_iff_eq]
  omega

/-- Cells that are hit count that much more. -/
theorem Counts.hits (h : Counts words count) (hps : ∀ p ∈ ps, p < words.length) :
    Counts (hits Counter.saturatingAdd words (ps.map fun p => (p, 1)))
      fun j => ps.count j + count j := by
  induction ps generalizing words count with
  | nil => simpa [hits] using h
  | cons p ps ih =>
    obtain ⟨hp, hps⟩ := forall_mem_cons.mp hps
    have hrs := ih (h.hit hp fun j => rfl) (by simpa using hps)
    intro j
    have hj := hrs j
    have hct := count_cons_add ps p j (count j)
    dsimp only at hj ⊢
    rw [hct, Nat.add_left_comm]
    exact hj

/-- Cells that hold enough can be taken from. -/
theorem exists_decrements (hps : ∀ p ∈ ps, p < words.length)
    (hle : ∀ p, value words p = 15 ∨ ps.count p ≤ value words p) :
    ∃ words', ps.foldlM CountingBloomFilter.decrement words = some words' := by
  induction ps generalizing words with
  | nil => exact ⟨words, rfl⟩
  | cons p ps ih =>
    obtain ⟨hp, hps⟩ := forall_mem_cons.mp hps
    have hpos : value words p ≠ 0 := by
      have := hle p
      rw [count_cons_self] at this
      omega
    have hdec := decrement_eq_some_iff.mpr ⟨hpos, rfl⟩
    obtain ⟨hlen, -, hval⟩ := decrement_value hp hdec
    rw [foldlM_cons, hdec]
    refine ih (by rwa [hlen]) fun j => ?_
    have hj := hle j
    have hct := count_cons_add ps p j 0
    rw [hval]
    split_ifs at hct ⊢ <;> omega

/-- How much each cell has lost, and that it had that much. -/
theorem decrements_value (hps : ∀ p ∈ ps, p < words.length)
    (h : ps.foldlM CountingBloomFilter.decrement words = some words') :
    words'.length = words.length ∧ ∀ j, value words j = 15 ∧ value words' j = 15 ∨
      value words j ≠ 15 ∧ value words j = ps.count j + value words' j := by
  induction ps generalizing words with
  | nil =>
    cases h
    refine ⟨rfl, fun j => ?_⟩
    rw [count_nil]
    omega
  | cons p ps ih =>
    obtain ⟨hp, hps⟩ := forall_mem_cons.mp hps
    obtain ⟨words₁, hdec, h⟩ := Option.bind_eq_some_iff.mp h
    obtain ⟨hlen, hpos, hval⟩ := decrement_value hp hdec
    obtain ⟨hlen', hrest⟩ := ih (by rwa [hlen]) h
    refine ⟨hlen'.trans hlen, fun j => ?_⟩
    have hj := hrest j
    have hct := count_cons_add ps p j 0
    have hle := value_le words j
    rw [hval] at hj
    by_cases hpj : p = j
    · subst hpj
      split_ifs at hj hct <;> omega
    · split_ifs at hj hct <;> omega

/-- Cells that count an item can be taken from, and then count the others. -/
theorem Counts.decrements (h : Counts words fun j => ps.count j + count j)
    (hps : ∀ p ∈ ps, p < words.length) :
    ∃ words', ps.foldlM CountingBloomFilter.decrement words = some words' ∧
      words'.length = words.length ∧ Counts words' count := by
  obtain ⟨words', hdec⟩ := exists_decrements hps fun p => (h p).imp_right fun hp =>
    (Nat.le_add_right _ _).trans_eq hp.symm
  obtain ⟨hlen, hval⟩ := decrements_value hps hdec
  refine ⟨words', hdec, hlen, fun j => ?_⟩
  have hj := h j
  have := hval j
  dsimp only at hj
  omega

/-- Merged cells count what both count. -/
theorem Counts.merge {other : List (Counter 15)} (h : Counts words count) (h' : Counts other count')
    (hlen : words.length = other.length) :
    Counts (zipWith Counter.saturatingAdd words other) fun j => count j + count' j := by
  intro j
  have hj := h j
  have hj' := h' j
  have hval : value (zipWith Counter.saturatingAdd words other) j =
      min (value words j + value other j) 15 := by
    simp only [value]
    by_cases hlt : j < words.length
    · simp [hlt, hlen ▸ hlt, Counter.saturatingAdd]
    · simp [hlt, hlen ▸ hlt]
  dsimp only
  omega

/-- An item is contained if its cells are counted. -/
theorem contains_iff {f : CountingBloomFilter} {h : BitVec 64} :
    f.contains h = true ↔ ∀ p ∈ spots h f.hashes f.cells, value f.words p ≠ 0 := by
  simp only [contains, spots, value, all_eq_true, forall_mem_map, decide_eq_true_eq, ne_eq,
    Fin.val_eq_zero_iff]

/-- A history of insertions, deletions of what is inserted, and merges, with what is still inserted. -/
inductive Run (hash : K → BitVec 64) (cells hashes : ℕ) : CountingBloomFilter → Multiset K → Prop
  | new : Run hash cells hashes (new cells hashes) 0
  | insert {f m} (h : Run hash cells hashes f m) (x : K) :
      Run hash cells hashes (f.insert (hash x)).1 (x ::ₘ m)
  | remove {f m x f' done} (h : Run hash cells hashes f (x ::ₘ m))
      (hremove : f.remove (hash x) = some (f', done)) : Run hash cells hashes f' m
  | merge {f m f' m'} (h : Run hash cells hashes f m) (h' : Run hash cells hashes f' m') :
      Run hash cells hashes (f.merge f') (m + m')

/-- Any history: insertions, removals of any item and merges, with what is still inserted. A removal that
was made takes one insertion of its item back, if there is one. -/
inductive History [DecidableEq K] (hash : K → BitVec 64) (cells hashes : ℕ) :
    CountingBloomFilter → Multiset K → Prop
  | new : History hash cells hashes (new cells hashes) 0
  | insert {f m} (h : History hash cells hashes f m) (x : K) :
      History hash cells hashes (f.insert (hash x)).1 (x ::ₘ m)
  | remove {f m f' done} (h : History hash cells hashes f m) (x : K)
      (hremove : f.remove (hash x) = some (f', done)) :
      History hash cells hashes f' (if done then m.erase x else m)
  | merge {f m f' m'} (h : History hash cells hashes f m) (h' : History hash cells hashes f' m') :
      History hash cells hashes (f.merge f') (m + m')

/-- How often the items hit a cell. -/
def load (hash : K → BitVec 64) (cells hashes : ℕ) (m : Multiset K) (j : ℕ) : ℕ :=
  (m.map fun x => (spots (hash x) hashes cells).count j).sum

variable {hash : K → BitVec 64} {f f' : CountingBloomFilter} {m : Multiset K}

/-- Every position is within the row. -/
theorem mem_spots_lt {h : BitVec 64} (hcl : 0 < cells) : ∀ p ∈ spots h hashes cells, p < cells := by
  intro p hp
  obtain ⟨i, -, rfl⟩ := mem_map.mp hp
  exact Nat.mod_lt _ hcl

/-- To remove an item is to take from its cells, if all of them are set. -/
theorem remove_of_contains {h : BitVec 64} (hco : f.contains h = true) : f.remove h =
    ((spots h f.hashes f.cells).foldlM CountingBloomFilter.decrement f.words).map
      fun words => ({ f with words }, true) := by
  rw [remove, if_pos hco, spots, foldlM_map]

/-- An item whose cells are set can be removed if they count it. -/
theorem remove_of_counts {h : BitVec 64} (hcl : 0 < cells) (hlen : words.length = cells)
    (hco : (mk cells hashes words).contains h = true)
    (hcn : Counts words fun j => (spots h hashes cells).count j + count j) :
    ∃ words', (mk cells hashes words).remove h = some (⟨cells, hashes, words'⟩, true) ∧
      words'.length = cells ∧ Counts words' count := by
  obtain ⟨words', hfo, hln', h'⟩ := hcn.decrements (by rw [hlen]; exact mem_spots_lt hcl)
  refine ⟨words', ?_, hln'.trans hlen, h'⟩
  rw [remove_of_contains hco, hfo]
  rfl

/-- Cells that count an item are set. -/
theorem contains_of_counts {h : BitVec 64}
    (hcn : Counts words fun j => (spots h hashes cells).count j + count j) :
    (mk cells hashes words).contains h = true := by
  rw [contains_iff]
  intro p hp
  have hpos : 0 < (spots h hashes cells).count p := count_pos_iff.mpr hp
  have := hcn p
  dsimp only at this ⊢
  omega

/-- An item adds what it hits. -/
theorem load_cons (x : K) : load hash cells hashes (x ::ₘ m) =
    fun j => (spots (hash x) hashes cells).count j + load hash cells hashes m j := by
  funext j
  rw [load, Multiset.map_cons, Multiset.sum_cons, load]

/-- The cells count what is inserted. -/
theorem Run.counts (hcl : 0 < cells) (h : Run hash cells hashes f m) :
    ∃ words, f = ⟨cells, hashes, words⟩ ∧ words.length = cells ∧
      Counts words (load hash cells hashes m) := by
  induction h with
  | new =>
    refine ⟨_, rfl, length_replicate, fun j => .inr ?_⟩
    by_cases hj : j < cells <;> simp [value, load, hj]
  | insert _ x ih =>
    obtain ⟨words, rfl, hlen, hcn⟩ := ih
    refine ⟨_, insert_mk _ _ _ _, (length_hits _ _).trans hlen, ?_⟩
    have hsp : hitsOf (hash x) hashes cells (1 : Counter 15) =
        (spots (hash x) hashes cells).map fun p => (p, 1) := by
      rw [spots, map_map]
      rfl
    rw [hsp, load_cons]
    exact hcn.hits (by rw [hlen]; exact mem_spots_lt hcl)
  | remove _ hremove ih =>
    obtain ⟨words, rfl, hlen, hcn⟩ := ih
    rw [load_cons] at hcn
    obtain ⟨words', heq, hln', h'⟩ :=
      remove_of_counts hcl hlen (contains_of_counts hcn) hcn
    rw [heq] at hremove
    cases hremove
    exact ⟨words', rfl, hln', h'⟩
  | @merge _ m _ m' _ _ ih ih' =>
    obtain ⟨words, rfl, hlen, hcn⟩ := ih
    obtain ⟨words', rfl, hln', hcn'⟩ := ih'
    refine ⟨_, rfl, ?_, ?_⟩
    · rw [length_zipWith, hlen, hln', min_self]
    · have hld : load hash cells hashes (m + m') =
          fun j => load hash cells hashes m j + load hash cells hashes m' j := by
        funext j
        rw [load, Multiset.map_add, Multiset.sum_add, load, load]
      rw [hld]
      exact hcn.merge hcn' (hlen.trans hln'.symm)

/-- What is inserted is contained, and can be removed. -/
theorem Run.contains (hcells : 0 < cells) (h : Run hash cells hashes f m) {x : K} (hx : x ∈ m) :
    f.contains (hash x) = true ∧ ∃ f', f.remove (hash x) = some (f', true) := by
  obtain ⟨words, rfl, hlen, hcn⟩ := h.counts hcells
  obtain ⟨m, rfl⟩ := Multiset.exists_cons_of_mem hx
  rw [load_cons] at hcn
  obtain ⟨_, hremove, -⟩ := remove_of_counts hcells hlen (contains_of_counts hcn) hcn
  exact ⟨contains_of_counts hcn, _, hremove⟩

/-- No call changes the number of cells or of hash functions. -/
theorem History.shape [DecidableEq K] (hcl : 0 < cells) (h : History hash cells hashes f m) :
    ∃ words, f = ⟨cells, hashes, words⟩ ∧ words.length = cells := by
  induction h with
  | new => exact ⟨_, rfl, length_replicate⟩
  | insert _ x ih =>
    obtain ⟨words, rfl, hlen⟩ := ih
    exact ⟨_, insert_mk _ _ _ _, (length_hits _ _).trans hlen⟩
  | @remove f m f' done _ x hremove ih =>
    obtain ⟨words, rfl, hlen⟩ := ih
    by_cases hco : (mk cells hashes words).contains (hash x) = true
    · rw [remove_of_contains hco] at hremove
      obtain ⟨words', hdec, heq⟩ := Option.map_eq_some_iff.mp hremove
      cases heq
      exact ⟨words', rfl, (decrements_value (by rw [hlen]; exact mem_spots_lt hcl) hdec).1.trans hlen⟩
    · rw [CountingBloomFilter.remove, if_neg hco] at hremove
      cases hremove
      exact ⟨words, rfl, hlen⟩
  | merge _ _ ih ih' =>
    obtain ⟨words, rfl, hlen⟩ := ih
    obtain ⟨words', rfl, hlen'⟩ := ih'
    exact ⟨_, rfl, by rw [length_zipWith, hlen, hlen', min_self]⟩

/-- After any history, a removal is made without underflow and leaves contained what is inserted just
when no cell of the item holds less than is taken from it, and none that an inserted item shares is
emptied. -/
theorem History.remove_contains [DecidableEq K] (hcells : 0 < cells)
    (h : History hash cells hashes f m) (x : K) :
    (∃ f' done, f.remove (hash x) = some (f', done) ∧
      ∀ y ∈ m, f.contains (hash y) = true → f'.contains (hash y) = true) ↔
    (f.contains (hash x) = true → ∀ p ∈ spots (hash x) hashes cells, value f.words p = 15 ∨
      (spots (hash x) hashes cells).count p ≤ value f.words p ∧
        ∀ y ∈ m, f.contains (hash y) = true → p ∈ spots (hash y) hashes cells →
          (spots (hash x) hashes cells).count p < value f.words p) := by
  obtain ⟨words, rfl, hlen⟩ := h.shape hcells
  have hps : ∀ p ∈ spots (hash x) hashes cells, p < words.length := by
    rw [hlen]
    exact mem_spots_lt hcells
  by_cases hco : (mk cells hashes words).contains (hash x) = true
  · rw [remove_of_contains hco]
    dsimp only
    constructor
    · rintro ⟨f', done, hremove, hkeep⟩ - p hp
      obtain ⟨words', hdec, heq⟩ := Option.map_eq_some_iff.mp hremove
      cases heq
      have hval := (decrements_value hps hdec).2 p
      refine or_iff_not_imp_left.mpr fun hne => ⟨by omega, fun y hy hcy hpy => ?_⟩
      have hset := contains_iff.mp (hkeep y hy hcy) p hpy
      dsimp only at hset
      omega
    · intro hroom
      have hroom := hroom hco
      obtain ⟨words', hdec⟩ := exists_decrements hps fun p => by
        by_cases hp : p ∈ spots (hash x) hashes cells
        · exact (hroom p hp).imp_right And.left
        · rw [count_eq_zero.mpr hp]
          exact .inr (Nat.zero_le _)
      refine ⟨_, _, by rw [hdec]; rfl, fun y hy hcy => contains_iff.mpr fun p hpy => ?_⟩
      have hset := contains_iff.mp hcy p hpy
      have hval := (decrements_value hps hdec).2 p
      dsimp only at hset ⊢
      by_cases hp : p ∈ spots (hash x) hashes cells
      · obtain h15 | ⟨-, hlt⟩ := hroom p hp
        · omega
        · have := hlt y hy hcy hpy
          omega
      · rw [count_eq_zero.mpr hp] at hval
        omega
  · exact iff_of_true ⟨_, _, if_neg hco, fun _ _ hy => hy⟩ fun h => absurd h hco

/-- The filter of these items. -/
def ofItems (cells hashes : ℕ) (items : List (BitVec 64)) : CountingBloomFilter :=
  items.foldl (fun f h => (f.insert h).1) (new cells hashes)

/-- The items `0` and `1` have the same cells. One of them is removed, and another filter is merged in:
the other one stays contained. -/
theorem contains_shared :
    let f := (ofItems 65 2 [1]).merge (ofItems 65 2 [2])
    (ofItems 65 2 [0, 1]).remove 0 = some (ofItems 65 2 [1], true) ∧ f.contains 1 = true ∧
      ∃ f', f.remove 1 = some (f', true) := by
  have hremove : (ofItems 65 2 [0, 1]).remove 0 = some (ofItems 65 2 [1], true) := by decide +kernel
  have hrun : Run id 65 2 (ofItems 65 2 [0, 1]) (0 ::ₘ {1}) := by
    rw [← Multiset.cons_zero, Multiset.cons_swap]
    exact .insert (.insert .new 0) 1
  exact ⟨hremove, Run.contains (by decide) (.merge (.remove hrun hremove) (.insert .new 2)) (by simp)⟩

/-- Item `0` was never inserted, but has the cells of item `1`. It is removed once, and again: item `1`,
inserted three times, stays contained. -/
theorem remove_contains_thrice : ∃ f' done, (ofItems 65 2 [1, 1]).remove 0 = some (f', done) ∧
    ∀ y ∈ ({1, 1, 1} : Multiset (BitVec 64)),
      (ofItems 65 2 [1, 1]).contains y = true → f'.contains y = true := by
  have hremove : (ofItems 65 2 [1, 1, 1]).remove 0 = some (ofItems 65 2 [1, 1], true) := by
    decide +kernel
  have hthrice : History id 65 2 (ofItems 65 2 [1, 1, 1]) {1, 1, 1} :=
    .insert (.insert (.insert .new 1) 1) 1
  have hrun := hthrice.remove 0 hremove
  have hcells : ∀ p ∈ spots 0 2 65, (spots 0 2 65).count p < value (ofItems 65 2 [1, 1]).words p := by
    decide +kernel
  refine (hrun.remove_contains (by decide) 0).mpr fun _ p hp => .inr ?_
  have hp := hcells p hp
  exact ⟨hp.le, fun _ _ _ _ => hp⟩

/-- The items `0` and `1` have the same cells, and both cells of item `65` are the same one. After an
insertion of item `1`, to remove item `0` takes it away, and to remove item `65` takes more from a cell
than it has. -/
theorem remove_absent : History id 65 2 (ofItems 65 2 [1]) {1} ∧
    (ofItems 65 2 [1]).contains 1 = true ∧
    ((ofItems 65 2 [1]).remove 0).any (fun r => !r.1.contains 1) = true ∧
    (ofItems 65 2 [1]).remove 65 = none :=
  ⟨.insert .new 1, by decide +kernel, by decide +kernel, by decide +kernel⟩

end CountingBloomFilter

section Shards

variable {ι : Type} [DecidableEq ι] {tree : MergeTree ι} (hash : K → BitVec 64)

theorem CountMinSketch.eval_eq_feed (depth width : ℕ) {observed : List ((K × Counter (2^32 - 1)) × ι)}
    (hcv : Covers tree observed) :
    (tree.eval merge fun i => feed hash depth width (shard observed i)) =
      feed hash depth width (observed.map Prod.fst) :=
  eval_eq Counter.saturatingAdd_zero (fun _ _ => rfl) (fun grid x => add_mk _ _ grid (hash x.1) x.2)
    (fun _ => rfl) hcv

variable {observed : List (K × ι)}

theorem BloomFilter.eval_eq_feed (bits hashes : ℕ) (hcv : Covers tree observed) :
    (tree.eval merge fun i => feed hash bits hashes (shard observed i)) =
      feed hash bits hashes (observed.map Prod.fst) :=
  eval_eq Bool.or_false (fun _ _ => rfl) (fun words x => insert_mk _ _ words (hash x))
    (fun _ => rfl) hcv

theorem CountingBloomFilter.eval_eq_feed (cells hashes : ℕ)
    (hcv : Covers tree observed) :
    (tree.eval merge fun i => feed hash cells hashes (shard observed i)) =
      feed hash cells hashes (observed.map Prod.fst) :=
  eval_eq Counter.saturatingAdd_zero (fun _ _ => rfl) (fun words x => insert_mk _ _ words (hash x))
    (fun _ => rfl) hcv

theorem HyperLogLog.eval_eq_feed (precision : ℕ) (hcv : Covers tree observed) :
    (tree.eval merge fun i => feed hash precision (shard observed i)) =
      feed hash precision (observed.map Prod.fst) := by
  refine eval_eq Nat.max_zero (fun a b => ?_) (fun registers x => addHash_mk _ registers (hash x))
    (fun _ => rfl) hcv
  have hmax : (fun a b : ℕ => if b > a then b else a) = max := by
    funext a b
    split_ifs <;> omega
  rw [merge, hmax]
  rfl

end Shards

end Flowscope.Correlate
