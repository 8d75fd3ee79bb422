import Flowscope.Http.Framing

/-!
# HTTP/1: finding the end of a line, a head or a trailer section

The scans of `src/http/engine.rs`. A scan for the end of a head or of a line starts where the last one
stopped, and says how far it has looked. `scanBlankLine_fst` and `scanCrlf_fst` say that a scan that
resumes finds what a scan from the front would find.

A scan finds the same end when more bytes follow (`blankFrom_append`, `findCrlf_append`,
`trailerFrom_append`).
-/

namespace Flowscope.Http

open Option

/-! ## Ends of lines -/

/-- Index of the first CRLF. -/
def findCrlf : Bytes → Option ℕ
  | a :: b :: rest => if a = CR ∧ b = LF then some 0 else (findCrlf (b :: rest)).map (· + 1)
  | _ => none

/-- Index of the first CRLF at `start` or after it. -/
def findCrlfFrom (buf : Bytes) (start : ℕ) : Option ℕ :=
  if buf.length ≤ start then none else (findCrlf (buf.drop start)).map (· + start)

/-- Index of the first CRLF, and how far it was looked for. -/
def scanCrlf (buf : Bytes) (scanned : ℕ) : Option ℕ × ℕ :=
  match findCrlfFrom buf (scanned - 1) with
  | some pos => (some pos, pos)
  | none => (none, buf.length)

/-! ## The end of a head -/

/-- The byte at `i` ends a blank line: it is the second of two LF, or the last of two CRLF. -/
def blankEndsAt (buf : Bytes) (i : ℕ) : Bool :=
  buf[i]? = some LF ∧
    ((1 ≤ i ∧ buf[i - 1]? = some LF) ∨
      (3 ≤ i ∧ buf[i - 1]? = some CR ∧ buf[i - 2]? = some LF ∧ buf[i - 3]? = some CR))

/-- The length up to the first blank line that ends at `i` or after it. -/
def blankFrom (buf : Bytes) (i : ℕ) : Option ℕ :=
  if i < buf.length then
    if blankEndsAt buf i then some (i + 1) else blankFrom buf (i + 1)
  else none
termination_by buf.length - i

/-- The length of the head in a buffer, and how far it was looked for. -/
def scanBlankLine (buf : Bytes) (scanned : ℕ) : Option ℕ × ℕ :=
  match blankFrom buf (scanned - 3) with
  | some hlen => (some hlen, hlen)
  | none => (none, buf.length)

/-! ## Trailers -/

variable {buf : Bytes} {start p : ℕ}

theorem findCrlf_lt (h : findCrlf buf = some p) : p + 1 < buf.length := by
  fun_induction findCrlf buf generalizing p with
  | case1 a b rest hab =>
    obtain rfl : 0 = p := some.inj h
    simp
  | case2 a b rest hab ih =>
    obtain ⟨q, hq, rfl⟩ := map_eq_some_iff.mp h
    have := ih hq
    simp only [List.length_cons] at this ⊢
    omega
  | case3 => cases h

theorem findCrlfFrom_bounds (h : findCrlfFrom buf start = some p) :
    start ≤ p ∧ p + 1 < buf.length := by
  unfold findCrlfFrom at h
  split at h
  · cases h
  · obtain ⟨q, hq, rfl⟩ := map_eq_some_iff.mp h
    have := findCrlf_lt hq
    rw [List.length_drop] at this
    omega

/-- The length up to the first empty line at `pos` or after it. -/
def trailerFrom (buf : Bytes) (pos : ℕ) : Option ℕ :=
  match _h : findCrlfFrom buf pos with
  | some eol => if eol = pos then some (eol + 2) else trailerFrom buf (eol + 2)
  | none => none
termination_by buf.length - pos
decreasing_by
  have := findCrlfFrom_bounds _h
  omega

/-- The length of the trailer section that begins with the last chunk's line, and how far the scan
has looked. -/
def scanTrailerEnd (buf : Bytes) : Option ℕ × ℕ :=
  match findCrlfFrom buf 0 with
  | none => (none, buf.length)
  | some first =>
    match trailerFrom buf (first + 2) with
    | some end_ => (some end_, 0)
    | none => (none, buf.length)

/-- The name and the value in a line of a trailer section, if it has a colon. -/
def trailerField (line : Bytes) : Option Field :=
  if 58 ∈ line then
    let region := (line.dropWhile (· ≠ 58)).tail
    let trimmed := region.length - (region.reverse.takeWhile isAsciiWhitespace).length
    let lead := (region.takeWhile fun b => b = 32 ∨ b = 9).length
    some (line.takeWhile (· ≠ 58), (region.take (max trimmed lead)).drop lead)
  else none

/-- The fields in the lines from `pos` on, up to an empty one. -/
def trailerFieldsFrom (block : Bytes) (pos : ℕ) : List Field :=
  match _h : findCrlfFrom block pos with
  | none => []
  | some eol =>
    if eol = pos then []
    else (trailerField ((block.take eol).drop pos)).toList ++ trailerFieldsFrom block (eol + 2)
termination_by block.length - pos
decreasing_by
  have := findCrlfFrom_bounds _h
  omega

/-- The fields of a trailer section. What is no field is skipped. -/
def parseTrailerFields (block : Bytes) : List Field :=
  trailerFieldsFrom block ((findCrlfFrom block 0).elim 0 (· + 2))

/-! ## What the scans find -/

def CrlfAt (buf : Bytes) (p : ℕ) : Prop := buf[p]? = some CR ∧ buf[p + 1]? = some LF

theorem crlfAt_cons (a : UInt8) (buf : Bytes) (p : ℕ) : CrlfAt (a :: buf) (p + 1) ↔ CrlfAt buf p := by
  simp [CrlfAt]

theorem crlfAt_drop (buf : Bytes) (start p : ℕ) :
    CrlfAt (buf.drop start) p ↔ CrlfAt buf (start + p) := by
  simp [CrlfAt, Nat.add_assoc]

theorem CrlfAt.lt (h : CrlfAt buf p) : p + 1 < buf.length :=
  (List.getElem?_eq_some_iff.mp h.2).1

theorem crlfAt_append {x : Bytes} (h : p + 1 < buf.length) :
    CrlfAt (buf ++ x) p ↔ CrlfAt buf p := by
  unfold CrlfAt
  rw [List.getElem?_append_left h, List.getElem?_append_left (Nat.lt_of_succ_lt h)]

theorem findCrlf_eq_some : findCrlf buf = some p ↔ CrlfAt buf p ∧ ∀ j < p, ¬CrlfAt buf j := by
  fun_induction findCrlf buf generalizing p with
  | case1 a b rest hab =>
    have h0 : CrlfAt (a :: b :: rest) 0 := by simp [CrlfAt, hab.1, hab.2]
    constructor
    · intro h
      obtain rfl : 0 = p := some.inj h
      exact ⟨h0, fun j hj => absurd hj (Nat.not_lt_zero j)⟩
    · rintro ⟨-, hfr⟩
      cases p with
      | zero => rfl
      | succ p => exact absurd h0 (hfr 0 p.succ_pos)
  | case2 a b rest hab ih =>
    have h0 : ¬CrlfAt (a :: b :: rest) 0 := fun h => hab (by simpa [CrlfAt] using h)
    constructor
    · intro h
      obtain ⟨q, hq, rfl⟩ := map_eq_some_iff.mp h
      obtain ⟨hat, hfr⟩ := ih.mp hq
      refine ⟨(crlfAt_cons a _ q).mpr hat, fun j hj => ?_⟩
      cases j with
      | zero => exact h0
      | succ j => exact fun h => hfr j (Nat.lt_of_succ_lt_succ hj) ((crlfAt_cons a _ j).mp h)
    · rintro ⟨hat, hfr⟩
      cases p with
      | zero => exact absurd hat h0
      | succ q =>
        refine map_eq_some_iff.mpr ⟨q, ih.mpr ⟨(crlfAt_cons a _ q).mp hat, fun j hj h => ?_⟩, rfl⟩
        exact hfr (j + 1) (Nat.succ_lt_succ hj) ((crlfAt_cons a _ j).mpr h)
  | case3 buf hsh =>
    refine ⟨nofun, fun h => ?_⟩
    have hlen := h.1.lt
    match buf, hsh with
    | [], _ => simp at hlen
    | [a], _ => simp at hlen
    | a :: b :: rest, hsh => exact absurd rfl (hsh a b rest)

theorem findCrlf_eq_none : findCrlf buf = none ↔ ∀ j, ¬CrlfAt buf j := by
  constructor
  · intro h j hj
    -- the first CRLF would have been found
    classical
    have hex : ∃ p, CrlfAt buf p := ⟨j, hj⟩
    have := findCrlf_eq_some.2 ⟨Nat.find_spec hex, fun i hi => Nat.find_min hex hi⟩
    rw [h] at this
    cases this
  · intro h
    cases hf : findCrlf buf with
    | none => rfl
    | some p => exact absurd (findCrlf_eq_some.1 hf).1 (h p)

theorem findCrlfFrom_eq_some :
    findCrlfFrom buf start = some p ↔
      start ≤ p ∧ CrlfAt buf p ∧ ∀ j, start ≤ j → j < p → ¬CrlfAt buf j := by
  unfold findCrlfFrom
  split_ifs with hlen
  · refine ⟨nofun, fun ⟨hp, hat, _⟩ => ?_⟩
    have := hat.lt
    omega
  · rw [map_eq_some_iff]
    constructor
    · rintro ⟨q, hq, rfl⟩
      obtain ⟨hat, hfr⟩ := findCrlf_eq_some.1 hq
      rw [crlfAt_drop, Nat.add_comm] at hat
      refine ⟨Nat.le_add_left start q, hat, fun j hj hjq h => hfr (j - start) (by omega) ?_⟩
      rw [crlfAt_drop, Nat.add_sub_cancel' hj]
      exact h
    · rintro ⟨hp, hat, hfr⟩
      refine ⟨p - start, findCrlf_eq_some.2 ⟨?_, fun j hj h => ?_⟩, Nat.sub_add_cancel hp⟩
      · rw [crlfAt_drop, Nat.add_sub_cancel' hp]
        exact hat
      · rw [crlfAt_drop] at h
        exact hfr (start + j) (Nat.le_add_right start j) (by omega) h

theorem findCrlfFrom_eq_none : findCrlfFrom buf start = none ↔ ∀ j, start ≤ j → ¬CrlfAt buf j := by
  unfold findCrlfFrom
  split_ifs with hlen
  · refine ⟨fun _ j hj h => ?_, fun _ => rfl⟩
    have := h.lt
    omega
  · rw [map_eq_none_iff, findCrlf_eq_none]
    constructor
    · intro h j hj hat
      refine h (j - start) ?_
      rw [crlfAt_drop, Nat.add_sub_cancel' hj]
      exact hat
    · intro h j hat
      exact h (start + j) (Nat.le_add_right start j) ((crlfAt_drop buf start j).mp hat)

theorem findCrlfFrom_zero (buf : Bytes) : findCrlfFrom buf 0 = findCrlf buf := by
  cases h : findCrlf buf with
  | none => exact findCrlfFrom_eq_none.2 fun j _ => findCrlf_eq_none.1 h j
  | some p =>
    obtain ⟨hat, hfr⟩ := findCrlf_eq_some.1 h
    exact findCrlfFrom_eq_some.2 ⟨Nat.zero_le p, hat, fun j _ hj => hfr j hj⟩

/-- A scan that resumes finds the first CRLF, if there is none in what it skips. -/
theorem scanCrlf_fst {scanned : ℕ} (h : ∀ j < scanned - 1, ¬CrlfAt buf j) :
    (scanCrlf buf scanned).1 = findCrlf buf := by
  have hfm : findCrlfFrom buf (scanned - 1) = findCrlf buf := by
    cases hf : findCrlf buf with
    | none => exact findCrlfFrom_eq_none.2 fun j _ => findCrlf_eq_none.1 hf j
    | some p =>
      obtain ⟨hat, hfr⟩ := findCrlf_eq_some.1 hf
      refine findCrlfFrom_eq_some.2 ⟨?_, hat, fun j _ hj => hfr j hj⟩
      by_contra hp
      exact h p (by omega) hat
  unfold scanCrlf
  rw [hfm]
  cases findCrlf buf with
  | none => rfl
  | some p => rfl

theorem findCrlfFrom_append (h : findCrlfFrom buf start = some p)
    (x : Bytes) : findCrlfFrom (buf ++ x) start = some p := by
  obtain ⟨hp, hat, hfr⟩ := findCrlfFrom_eq_some.1 h
  have hlt := hat.lt
  refine findCrlfFrom_eq_some.2 ⟨hp, (crlfAt_append hlt).mpr hat, fun j hj hjp hat' => ?_⟩
  exact hfr j hj hjp ((crlfAt_append (by omega)).mp hat')

/-- A CRLF that was not there before ends in what was added. -/
theorem length_le_of_findCrlfFrom_append {x : Bytes}
    (h : findCrlfFrom buf start = none) (hx : findCrlfFrom (buf ++ x) start = some p) :
    buf.length ≤ p + 1 := by
  obtain ⟨hp, hat, -⟩ := findCrlfFrom_eq_some.1 hx
  by_contra hlt
  exact findCrlfFrom_eq_none.1 h p hp ((crlfAt_append (by omega)).mp hat)

theorem findCrlf_append (h : findCrlf buf = some p) (x : Bytes) : findCrlf (buf ++ x) = some p := by
  rw [← findCrlfFrom_zero] at h ⊢
  exact findCrlfFrom_append h x

theorem length_le_of_findCrlf_append {x : Bytes} (h : findCrlf buf = none)
    (hx : findCrlf (buf ++ x) = some p) : buf.length ≤ p + 1 := by
  rw [← findCrlfFrom_zero] at h hx
  exact length_le_of_findCrlfFrom_append h hx

theorem trailerFrom_append {pos n : ℕ} (h : trailerFrom buf pos = some n) (x : Bytes) :
    trailerFrom (buf ++ x) pos = some n := by
  fun_induction trailerFrom buf pos with
  | case1 pos heol =>
    rw [trailerFrom, findCrlfFrom_append heol x]
    simpa using h
  | case2 pos eol heol hne ih =>
    rw [trailerFrom, findCrlfFrom_append heol x]
    simpa [hne] using ih h
  | case3 => cases h

/-- The end of a trailer section that was not there before is in what was added. -/
theorem length_lt_of_trailerFrom_append {x : Bytes} {pos n : ℕ} (h : trailerFrom buf pos = none)
    (hx : trailerFrom (buf ++ x) pos = some n) : buf.length < n := by
  fun_induction trailerFrom buf pos with
  | case1 => cases h
  | case2 pos eol heol hne ih =>
    rw [trailerFrom, findCrlfFrom_append heol x] at hx
    exact ih h (by simpa [hne] using hx)
  | case3 pos hnn =>
    -- no line ends in the buffer, so whatever ends the section lies behind it
    fun_induction trailerFrom (buf ++ x) pos with
    | case1 pos heol =>
      obtain rfl : pos + 2 = n := some.inj hx
      have := length_le_of_findCrlfFrom_append hnn heol
      omega
    | case2 pos eol heol hne ih =>
      refine ih ?_ hx
      have := length_le_of_findCrlfFrom_append hnn heol
      refine findCrlfFrom_eq_none.2 fun j hj hat => ?_
      have := hat.lt
      omega
    | case3 => cases hx

theorem trailerFrom_bounds {pos n : ℕ} (h : trailerFrom buf pos = some n) :
    pos < n ∧ n ≤ buf.length := by
  fun_induction trailerFrom buf pos with
  | case1 pos heol =>
    obtain rfl : pos + 2 = n := some.inj h
    have := findCrlfFrom_bounds heol
    omega
  | case2 pos eol heol hne ih =>
    have := findCrlfFrom_bounds heol
    have := ih h
    omega
  | case3 => cases h

theorem blankEndsAt_append {x : Bytes} {i : ℕ} (h : i < buf.length) :
    blankEndsAt (buf ++ x) i = blankEndsAt buf i := by
  unfold blankEndsAt
  rw [List.getElem?_append_left h, List.getElem?_append_left (by omega : i - 1 < buf.length),
    List.getElem?_append_left (by omega : i - 2 < buf.length),
    List.getElem?_append_left (by omega : i - 3 < buf.length)]

theorem blankFrom_eq_some {i n : ℕ} :
    blankFrom buf i = some n ↔ i < n ∧ n ≤ buf.length ∧ blankEndsAt buf (n - 1) ∧
      ∀ j, i ≤ j → j + 1 < n → ¬blankEndsAt buf j := by
  fun_induction blankFrom buf i with
  | case1 i hlt hat =>
    constructor
    · intro h
      obtain rfl : i + 1 = n := some.inj h
      exact ⟨by omega, hlt, hat, fun j hj hjn => by omega⟩
    · rintro ⟨hn, -, -, hfr⟩
      rcases Nat.lt_or_ge (i + 1) n with hlt' | hge
      · exact absurd hat (hfr i le_rfl hlt')
      · exact congrArg some (by omega)
  | case2 i hlt hat ih =>
    rw [ih]
    constructor
    · rintro ⟨hn, hlen, hend, hfr⟩
      refine ⟨by omega, hlen, hend, fun j hj hjn => ?_⟩
      rcases Nat.eq_or_lt_of_le hj with rfl | hj
      · exact hat
      · exact hfr j hj hjn
    · rintro ⟨hn, hlen, hend, hfr⟩
      refine ⟨?_, hlen, hend, fun j hj hjn => hfr j (by omega) hjn⟩
      by_contra hi
      obtain rfl : n = i + 1 := by omega
      exact hat hend
  | case3 i hge =>
    refine ⟨nofun, fun ⟨hn, hlen, _⟩ => ?_⟩
    omega

theorem blankFrom_eq_none {i : ℕ} :
    blankFrom buf i = none ↔ ∀ j, i ≤ j → j < buf.length → ¬blankEndsAt buf j := by
  fun_induction blankFrom buf i with
  | case1 i hlt hat => exact ⟨nofun, fun h => absurd hat (h i le_rfl hlt)⟩
  | case2 i hlt hat ih =>
    rw [ih]
    refine ⟨fun h j hj hjl => ?_, fun h j hj hjl => h j (by omega) hjl⟩
    rcases Nat.eq_or_lt_of_le hj with rfl | hj
    · exact hat
    · exact h j hj hjl
  | case3 i hge => exact ⟨fun _ j hj hjl => by omega, fun _ => rfl⟩

/-- A scan that resumes finds the first blank line, if none ends in what it skips. -/
theorem scanBlankLine_fst {scanned : ℕ} (h : ∀ j < scanned - 3, ¬blankEndsAt buf j) :
    (scanBlankLine buf scanned).1 = blankFrom buf 0 := by
  have hfm : blankFrom buf (scanned - 3) = blankFrom buf 0 := by
    cases hf : blankFrom buf 0 with
    | none =>
      exact blankFrom_eq_none.2 fun j _ hj => blankFrom_eq_none.1 hf j (Nat.zero_le j) hj
    | some n =>
      obtain ⟨hn, hlen, hend, hfr⟩ := blankFrom_eq_some.1 hf
      refine blankFrom_eq_some.2
        ⟨?_, hlen, hend, fun j _ hjn => hfr j (Nat.zero_le j) hjn⟩
      by_contra hs
      exact h (n - 1) (by omega) hend
  unfold scanBlankLine
  rw [hfm]
  cases blankFrom buf 0 with
  | none => rfl
  | some n => rfl

theorem blankFrom_append {i n : ℕ} (h : blankFrom buf i = some n) (x : Bytes) :
    blankFrom (buf ++ x) i = some n := by
  obtain ⟨hn, hlen, hend, hfr⟩ := blankFrom_eq_some.1 h
  refine blankFrom_eq_some.2 ⟨hn, by rw [List.length_append]; omega, ?_, fun j hj hjn => ?_⟩
  · rw [blankEndsAt_append (by omega)]
    exact hend
  · rw [blankEndsAt_append (by omega)]
    exact hfr j hj hjn

/-- A blank line that was not there before ends in what was added. -/
theorem length_lt_of_blankFrom_append {x : Bytes} {i n : ℕ} (h : blankFrom buf i = none)
    (hx : blankFrom (buf ++ x) i = some n) : buf.length < n := by
  obtain ⟨hn, -, hend, -⟩ := blankFrom_eq_some.1 hx
  by_contra hlt
  rw [blankEndsAt_append (by omega)] at hend
  exact blankFrom_eq_none.1 h (n - 1) (by omega) (by omega) hend

end Flowscope.Http
