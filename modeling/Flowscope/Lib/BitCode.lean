import Mathlib.Tactic

/-!
# Codes over bits

Bit strings are lists, the most significant bit first. The first half of this file converts between
them and numbers (`ofNat`, `value`). The second half is about reading a message that was written one
codeword after another: `scan` reads bit by bit, and after each bit asks `read` whether the bits
since the last symbol are one. If each codeword spells its symbol (`Spells`), which for a code table
is prefix-freeness (`isPrefix_ofNat`), the message comes back (`scan_flatMap`).
-/

universe u v

namespace BitCode

open List Nat

/-! ## Bits and numbers -/

/-- The low `len` bits of a number. -/
def ofNat : ℕ → ℕ → List Bool
  | 0, _ => []
  | len + 1, n => n.testBit len :: ofNat len n

/-- The number that bits spell. -/
def value (w : List Bool) : ℕ := w.foldl (fun n b => 2 * n + b.toNat) 0

@[simp]
theorem length_ofNat (len n : ℕ) : (ofNat len n).length = len := by
  induction len with
  | zero => rfl
  | succ len ih => simp [ofNat, ih]

variable {n : ℕ}

theorem ofNat_congr {len m : ℕ} (h : ∀ i < len, m.testBit i = n.testBit i) :
    ofNat len m = ofNat len n := by
  induction len with
  | zero => rfl
  | succ len ih => rw [ofNat, ofNat, h len (by omega), ih fun i hi => h i (by omega)]

/-- Bits split into the high ones and the low ones. -/
theorem ofNat_add (a b n : ℕ) : ofNat (a + b) n = ofNat a (n >>> b) ++ ofNat b n := by
  induction a with
  | zero => simp [ofNat]
  | succ a ih =>
    rw [show a + 1 + b = a + b + 1 by omega, ofNat, ofNat, ih, testBit_shiftRight,
      add_comm b a, cons_append]

/-- Bits are put together from the high ones and the low ones. -/
theorem ofNat_shiftLeft_or {a b m : ℕ} (hn : n < 2^b) :
    ofNat (a + b) ((m <<< b) ||| n) = ofNat a m ++ ofNat b n := by
  have hhg : ((m <<< b) ||| n) >>> b = m := by
    rw [← shiftLeft_add_eq_or_of_lt hn, shiftRight_eq_div_pow, shiftLeft_eq,
      mul_comm, mul_add_div (by positivity), div_eq_of_lt hn, add_zero]
  have hlow : ∀ i < b, ((m <<< b) ||| n).testBit i = n.testBit i := by
    intro i hi
    rw [testBit_or, testBit_shiftLeft, decide_eq_false (by omega), Bool.false_and,
      Bool.false_or]
  rw [ofNat_add, hhg, ofNat_congr hlow]

/-- The same in an accumulator of `w` bits, which loses only bits that are not asked for. -/
theorem ofNat_shiftLeft_mod_or {a b w m : ℕ} (hn : n < 2^b) (hw : a + b ≤ w) :
    ofNat (a + b) (((m <<< b) % 2^w) ||| n) = ofNat a m ++ ofNat b n := by
  rw [← ofNat_shiftLeft_or hn]
  apply ofNat_congr
  intro i hi
  rw [testBit_or, testBit_or, testBit_mod_two_pow, decide_eq_true (by omega),
    Bool.true_and]

/-- Bits beyond those asked for do not matter. -/
theorem ofNat_mod {len w : ℕ} (h : len ≤ w) (n : ℕ) : ofNat len (n % 2^w) = ofNat len n := by
  apply ofNat_congr
  intro i hi
  rw [testBit_mod_two_pow, decide_eq_true (by omega), Bool.true_and]

/-- The all-ones number spells ones. -/
theorem ofNat_ones (len : ℕ) : ofNat len (2^len - 1) = List.replicate len true := by
  have hbt : ∀ k ≤ len, ofNat k (2^len - 1) = List.replicate k true := by
    intro k hk
    induction k with
    | zero => rfl
    | succ k ih =>
      rw [ofNat, ih (by omega), testBit_two_pow_sub_one, decide_eq_true (by omega),
        replicate_succ]
  exact hbt len le_rfl

theorem foldl_value (w : List Bool) (n : ℕ) :
    w.foldl (fun n b => 2 * n + b.toNat) n = n * 2^w.length + value w := by
  induction w generalizing n with
  | nil => simp [value]
  | cons b w ih =>
    rw [value, foldl_cons, foldl_cons, ih, ih (2 * 0 + b.toNat), length_cons]
    ring

theorem value_cons (b : Bool) (w : List Bool) :
    value (b :: w) = b.toNat * 2^w.length + value w := by
  rw [value, foldl_cons, foldl_value]
  ring

theorem value_append_singleton (w : List Bool) (b : Bool) :
    value (w ++ [b]) = 2 * value w + b.toNat := by
  rw [value, foldl_append]
  rfl

theorem value_ofNat (len n : ℕ) : value (ofNat len n) = n % 2^len := by
  induction len with
  | zero => simp [ofNat, value, mod_one]
  | succ len ih =>
    rw [ofNat, value_cons, length_ofNat, ih, toNat_testBit, pow_succ, mod_mul]
    ring

/-- Two words of one length that spell the same number are the same. -/
theorem eq_of_value_eq {w w' : List Bool} (hlen : w.length = w'.length)
    (hvl : value w = value w') : w = w' := by
  induction w generalizing w' with
  | nil => exact (length_eq_zero_iff.mp hlen.symm).symm
  | cons b w ih =>
    obtain ⟨b', w', rfl⟩ := exists_cons_of_length_eq_add_one hlen.symm
    have hlt : ∀ w : List Bool, value w < 2^w.length := by
      intro w
      induction w with
      | nil => simp [value]
      | cons b w ih =>
        have hb : b.toNat ≤ 1 := Bool.toNat_le b
        rw [value_cons, length_cons, pow_succ]
        nlinarith
    have hw := hlt w
    have hw' := hlt w'
    rw [value_cons, value_cons] at hvl
    have hln' : w.length = w'.length := by simpa using hlen
    rw [hln'] at hw hvl
    cases b <;> cases b' <;> simp only [Bool.toNat_false, Bool.toNat_true, zero_mul, zero_add] at hvl
    · rw [ih hln' hvl]
    · omega
    · omega
    · rw [ih hln' (by omega)]

/-- A codeword starts another when the number of the one is the other's leading bits. -/
theorem isPrefix_ofNat {la lb a b : ℕ} (ha : a < 2^la) (hb : b < 2^lb)
    (h : ofNat la a <+: ofNat lb b) : la ≤ lb ∧ b >>> (lb - la) = a := by
  have hle : la ≤ lb := by simpa using h.length_le
  refine ⟨hle, ?_⟩
  obtain ⟨k, rfl⟩ := Nat.exists_eq_add_of_le hle
  rw [ofNat_add] at h
  have heq : ofNat la a = ofNat la (b >>> k) :=
    List.IsPrefix.eq_of_length
      (prefix_of_prefix_length_le h (prefix_append _ _) (by simp)) (by simp)
  have hvl := congrArg value heq
  rw [value_ofNat, value_ofNat, Nat.mod_eq_of_lt ha, Nat.mod_eq_of_lt] at hvl
  · rw [Nat.add_sub_cancel_left, hvl]
  · rw [Nat.shiftRight_eq_div_pow, Nat.div_lt_iff_lt_mul (by positivity), ← Nat.pow_add]
    exact hb

/-! ## Code tables

A code table gives each symbol a number and its length in bits. That no codeword starts another is
checked by sorting the table: filled up to `n` bits, the words that start with one codeword are an
interval, and in a sorted table each interval ends before the next one begins. -/

/-- The bits of a table's entry. -/
def word (e : ℕ × ℕ) : List Bool := ofNat e.2 e.1

/-- Filled up to `n` bits, what starts with the word of `a` lies below what starts with that of
`b`. -/
def Before (n : ℕ) (a b : ℕ × ℕ) : Prop := (a.1 + 1) * 2^(n - a.2) ≤ b.1 * 2^(n - b.2)

instance (n : ℕ) : DecidableRel (Before n) := fun _ _ => inferInstanceAs (Decidable (_ ≤ _))

instance (n : ℕ) : Trans (Before n) (Before n) (Before n) where
  trans {a b c} hab hbc := by
    have hb : b.1 * 2^(n - b.2) ≤ (b.1 + 1) * 2^(n - b.2) :=
      Nat.mul_le_mul_right _ (Nat.le_succ _)
    exact hab.trans (hb.trans hbc)

/-- A word that starts another lies around it. -/
theorem interval_of_isPrefix {a b : ℕ × ℕ} (ha : a.1 < 2^a.2) (hb : b.1 < 2^b.2)
    (hn : b.2 ≤ n) (h : word a <+: word b) :
    a.1 * 2^(n - a.2) ≤ b.1 * 2^(n - b.2) ∧ b.1 * 2^(n - b.2) < (a.1 + 1) * 2^(n - a.2) := by
  obtain ⟨hle, hsh⟩ := isPrefix_ofNat ha hb h
  obtain ⟨k, hk⟩ := Nat.exists_eq_add_of_le hle
  obtain ⟨m, rfl⟩ := Nat.exists_eq_add_of_le hn
  have hpow : 2^(b.2 + m - a.2) = 2^k * 2^m := by
    rw [← Nat.pow_add]
    congr 1
    omega
  rw [hk, Nat.add_sub_cancel_left, Nat.shiftRight_eq_div_pow] at hsh
  have hle' : a.1 * 2^k ≤ b.1 := (Nat.le_div_iff_mul_le (by positivity)).mp hsh.ge
  have hlt' : b.1 < (a.1 + 1) * 2^k :=
    (Nat.div_lt_iff_lt_mul (by positivity)).mp (Nat.lt_succ_of_le hsh.le)
  rw [hpow, Nat.add_sub_cancel_left, ← Nat.mul_assoc, ← Nat.mul_assoc]
  exact ⟨Nat.mul_le_mul_right _ hle', Nat.mul_lt_mul_of_pos_right hlt' (by positivity)⟩

theorem Before.not_isPrefix {a b : ℕ × ℕ} (h : Before n a b) (ha : a.1 < 2^a.2)
    (hb : b.1 < 2^b.2) (hna : a.2 ≤ n) (hnb : b.2 ≤ n) :
    ¬word a <+: word b ∧ ¬word b <+: word a := by
  unfold Before at h
  constructor
  · intro hpre
    have := (interval_of_isPrefix ha hb hnb hpre).2
    omega
  · intro hpre
    have := (interval_of_isPrefix hb ha hna hpre).1
    have hpos : 0 < 2^(n - a.2) := by positivity
    rw [add_mul] at h
    omega

/-- In a table whose sorted intervals do not meet, no codeword starts another. -/
theorem pairwise_not_isPrefix {table : List (ℕ × ℕ)} (hbn : ∀ e ∈ table, e.2 ≤ n ∧ e.1 < 2^e.2)
    (hsr : (table.insertionSort (Before n)).IsChain (Before n)) :
    table.Pairwise fun a b => ¬word a <+: word b ∧ ¬word b <+: word a := by
  have hpr := perm_insertionSort (Before n) table
  have hps : (table.insertionSort (Before n)).Pairwise
      fun a b => ¬word a <+: word b ∧ ¬word b <+: word a := by
    apply (isChain_iff_pairwise.mp hsr).imp_of_mem
    intro a b ha hb h
    obtain ⟨hna, ha⟩ := hbn a (hpr.mem_iff.mp ha)
    obtain ⟨hnb, hb⟩ := hbn b (hpr.mem_iff.mp hb)
    exact h.not_isPrefix ha hb hna hnb
  exact hpr.pairwise hps fun h => ⟨h.2, h.1⟩

/-! ## Reading a message bit by bit -/

variable {ε : Type u} {σ : Type v} {read : List Bool → Except ε (Option σ)}

/-- Read bits one at a time; `acc` are those since the last symbol. The symbols, and the bits that
are left over. -/
def scan (read : List Bool → Except ε (Option σ)) (acc : List Bool) :
    List Bool → Except ε (List σ × List Bool)
  | [] => .ok ([], acc)
  | b :: bits => do
    match ← read (acc ++ [b]) with
    | none => scan read (acc ++ [b]) bits
    | some s =>
      let (out, left) ← scan read [] bits
      return (s :: out, left)

/-- Read bit by bit, a word gives no symbol before its last bit. -/
def Silent (read : List Bool → Except ε (Option σ)) (w : List Bool) : Prop :=
  ∀ p, p <+: w → p ≠ [] → read p = .ok none

/-- Read bit by bit, a word gives a symbol at its last bit and none before. -/
structure Spells (read : List Bool → Except ε (Option σ)) (w : List Bool) (s : σ) : Prop where
  ne_nil : w ≠ []
  last : read w = .ok (some s)
  before : ∀ p, p <+: w → p ≠ [] → p ≠ w → read p = .ok none

theorem scan_of_silent {acc w : List Bool}
    (h : ∀ p, p <+: w → p ≠ [] → read (acc ++ p) = .ok none) (bits : List Bool) :
    scan read acc (w ++ bits) = scan read (acc ++ w) bits := by
  induction w generalizing acc with
  | nil => rw [nil_append, append_nil]
  | cons b w ih =>
    have hb : read (acc ++ [b]) = .ok none := h [b] (by simp) (by simp)
    have hrs : ∀ p, p <+: w → p ≠ [] → read (acc ++ [b] ++ p) = .ok none := by
      intro p hp _
      rw [append_assoc]
      exact h (b :: p) (cons_prefix_cons.mpr ⟨rfl, hp⟩) (by simp)
    calc scan read acc (b :: w ++ bits) = scan read (acc ++ [b]) (w ++ bits) := by
          rw [cons_append, scan, hb]
          rfl
      _ = scan read (acc ++ [b] ++ w) bits := ih hrs
      _ = scan read (acc ++ b :: w) bits := by rw [append_assoc, singleton_append]

theorem scan_of_spells {w : List Bool} {s : σ} (h : Spells read w s) (bits : List Bool) :
    scan read [] (w ++ bits) = (scan read [] bits).map fun r => (s :: r.1, r.2) := by
  -- all bits but the last are silent
  obtain rfl | ⟨w, b, rfl⟩ := eq_nil_or_concat' w
  · exact absurd rfl h.ne_nil
  have hsl : ∀ p, p <+: w → p ≠ [] → read ([] ++ p) = .ok none := by
    intro p hp hne
    apply h.before p (hp.trans (prefix_append _ _)) hne
    rintro rfl
    simpa using hp.length_le
  rw [append_assoc, scan_of_silent hsl, nil_append, singleton_append, scan, h.last]
  cases scan read [] bits <;> rfl

/-- A message written one codeword after another comes back, followed by the padding. -/
theorem scan_flatMap {code : σ → List Bool} {msg : List σ} {pad : List Bool}
    (hcd : ∀ s ∈ msg, Spells read (code s) s) (hpad : Silent read pad) :
    scan read [] (msg.flatMap code ++ pad) = .ok (msg, pad) := by
  induction msg with
  | nil =>
    have hsc : scan read [] (pad ++ []) = scan read ([] ++ pad) [] :=
      scan_of_silent (fun p hp hne => hpad p hp hne) []
    rw [append_nil] at hsc
    rw [flatMap_nil, nil_append, hsc, nil_append, scan]
  | cons s msg ih =>
    rw [flatMap_cons, append_assoc, scan_of_spells (hcd s mem_cons_self),
      ih fun s' hs' => hcd s' (mem_cons_of_mem _ hs')]
    rfl

/-- The other way round: bits that are read are the codewords of the symbols, and what is left
over. -/
theorem flatMap_of_scan {code : σ → List Bool}
    (hrd : ∀ {w s}, read w = .ok (some s) → w = code s) {acc bits left : List Bool} {msg : List σ}
    (h : scan read acc bits = .ok (msg, left)) : acc ++ bits = msg.flatMap code ++ left := by
  induction bits generalizing acc msg with
  | nil =>
    cases h
    rw [append_nil, flatMap_nil, nil_append]
  | cons b bits ih =>
    rw [scan] at h
    cases hr : read (acc ++ [b]) with
    | error e =>
      rw [hr] at h
      cases h
    | ok r =>
      rw [hr] at h
      cases r with
      | none => simpa using ih h
      | some s =>
        cases hs : scan read [] bits with
        | error e => simp [bind, Except.bind, hs] at h
        | ok r =>
          obtain ⟨rfl, rfl⟩ : s :: r.1 = msg ∧ r.2 = left := by
            simpa [bind, Except.bind, pure, Except.pure, hs] using h
          rw [flatMap_cons, ← hrd hr, append_assoc, ← ih hs]
          simp

end BitCode
