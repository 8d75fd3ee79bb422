import Flowscope.Http.Resume

/-!
# HTTP/1: where a head ends

The engine finds the end of a head with its own scan, and lets `httparse` read the fields in what it
found. How much of it `httparse` consumed is ignored. `httparse` skips empty lines in front of a head
and ends it at the first empty line, where a line may end in CRLF or in LF alone (`headEnd`). The scan
ends a head after two LF, or after two CRLF.

The two agree unless a line that ends in LF alone is followed by an empty line that ends in CRLF
(`MixedEnd`). Then `httparse` stops there, and the engine goes on to the next blank line: whatever stands
in between, another head for instance, is swallowed (`head_swallowed`). `Engine.head_boundary` says
that this is the only difference.
-/

namespace Flowscope.Http

/-- The length of the empty lines in front. -/
def leadingEmpty : Bytes → ℕ
  | [] => 0
  | b :: rest =>
    if b = LF ∨ (b = CR ∧ rest.head? = some LF) then leadingEmpty rest + 1 else 0

/-- The byte at `j` ends an empty line that comes after another line. -/
def emptyLineEndsAt (buf : Bytes) (j : ℕ) : Bool :=
  buf[j]? = some LF ∧
    ((1 ≤ j ∧ buf[j - 1]? = some LF) ∨ (2 ≤ j ∧ buf[j - 1]? = some CR ∧ buf[j - 2]? = some LF))

/-- Where `httparse` ends the head at the front. -/
def headEnd (b : Bytes) : Option ℕ :=
  let buf := b.drop (leadingEmpty b)
  ((List.range buf.length).find? (emptyLineEndsAt buf)).map (leadingEmpty b + · + 1)

/-- A line ends in LF alone, and the next one is an empty line that ends in CRLF. -/
def MixedEnd (b : Bytes) : Prop :=
  ∃ i x, b[i]? = some x ∧ x ≠ CR ∧ x ≠ LF ∧ b[i + 1]? = some LF ∧ b[i + 2]? = some CR ∧
    b[i + 3]? = some LF

/-- Empty lines have no other bytes. -/
theorem getElem?_of_lt_leadingEmpty {b : Bytes} {i : ℕ} (hi : i < leadingEmpty b) :
    b[i]? = some CR ∨ b[i]? = some LF := by
  induction b generalizing i with
  | nil => exact absurd hi (Nat.not_lt_zero i)
  | cons a rest ih =>
    rw [leadingEmpty] at hi
    split at hi
    · next ha =>
      cases i with
      | zero =>
        rcases ha with rfl | ⟨rfl, -⟩
        · exact .inr rfl
        · exact .inl rfl
      | succ i => exact ih (Nat.lt_of_succ_lt_succ hi)
    · exact absurd hi (Nat.not_lt_zero i)

/-- After the empty lines in front comes no LF. -/
theorem getElem?_leadingEmpty (b : Bytes) : b[leadingEmpty b]? ≠ some LF := by
  induction b with
  | nil => nofun
  | cons a rest ih =>
    rw [leadingEmpty]
    split
    · exact ih
    · next ha =>
      intro h
      exact ha (.inl (Option.some.inj h))

/-- What `headEnd` finds: the first end of an empty line after those in front. -/
theorem headEnd_eq_some {b : Bytes} {n : ℕ} (h : headEnd b = some n) :
    ∃ j, n = leadingEmpty b + j + 1 ∧ n ≤ b.length ∧
      emptyLineEndsAt (b.drop (leadingEmpty b)) j = true ∧
      ∀ i < j, emptyLineEndsAt (b.drop (leadingEmpty b)) i = false := by
  obtain ⟨j, hj, rfl⟩ := Option.map_eq_some_iff.mp h
  obtain ⟨hat, hmem, hfr⟩ := List.find?_range_eq_some.mp hj
  rw [List.mem_range, List.length_drop] at hmem
  refine ⟨j, rfl, by omega, hat, fun i hi => ?_⟩
  simpa using hfr i hi

variable {b : Bytes} {n : ℕ}

/-- The bytes that end an empty line, and the one before them. -/
theorem emptyLineEndsAt_cases {j : ℕ} (hj : emptyLineEndsAt (b.drop (leadingEmpty b)) j = true) :
    b[leadingEmpty b + j]? = some LF ∧
      ((1 ≤ j ∧ b[leadingEmpty b + (j - 1)]? = some LF) ∨
        (3 ≤ j ∧ b[leadingEmpty b + (j - 1)]? = some CR ∧ b[leadingEmpty b + (j - 2)]? = some LF)) := by
  have hj' := of_decide_eq_true hj
  simp only [List.getElem?_drop] at hj'
  obtain ⟨hlf, hca⟩ := hj'
  refine ⟨hlf, hca.imp_right fun ⟨h2, hcr, hlf'⟩ => ⟨?_, hcr, hlf'⟩⟩
  -- the LF at `j - 2` is not the first byte, which is no LF
  by_contra hlt
  obtain rfl : j = 2 := by omega
  exact getElem?_leadingEmpty b hlf'

/-- Where the scan ends a head, `httparse` ends it too, unless the ends of lines are mixed. -/
theorem headEnd_eq_length_iff (hls : blankEndsAt b (b.length - 1) = true)
    (hfr : ∀ j, j + 1 < b.length → ¬blankEndsAt b j) (hn : headEnd b = some n) :
    n = b.length ↔ ¬MixedEnd b := by
  obtain ⟨j, rfl, hle, hat, hmin⟩ := headEnd_eq_some hn
  obtain ⟨hlf, hca⟩ := emptyLineEndsAt_cases hat
  set s := leadingEmpty b with hs
  -- `httparse` ends the head where the scan does, if the scan ends it at `s + j`
  have hbl (h : blankEndsAt b (s + j) = true) : s + j + 1 = b.length := by
    by_contra hlt
    exact hfr (s + j) (by omega) h
  constructor
  · rintro hlen ⟨i, x, hx, hcr, hxlf, h₁, h₂, h₃⟩
    have hi : s ≤ i := by
      by_contra hlt
      rcases getElem?_of_lt_leadingEmpty (Nat.lt_of_not_le hlt) with h | h
      · exact hcr (Option.some.inj (hx.symm.trans h))
      · exact hxlf (Option.some.inj (hx.symm.trans h))
    have hend : emptyLineEndsAt (b.drop s) (i + 3 - s) = true := by
      simp only [emptyLineEndsAt, List.getElem?_drop, decide_eq_true_eq]
      refine ⟨by rwa [show s + (i + 3 - s) = i + 3 by omega], .inr ⟨by omega, ?_, ?_⟩⟩
      · rwa [show s + (i + 3 - s - 1) = i + 2 by omega]
      · rwa [show s + (i + 3 - s - 2) = i + 1 by omega]
    have hj : j ≤ i + 3 - s := by
      by_contra hlt
      rw [hmin _ (Nat.lt_of_not_le hlt)] at hend
      cases hend
    -- so the mixed end would be the last one, where the scan has found two ends alike
    have hi3 : i + 3 < b.length := (List.getElem?_eq_some_iff.mp h₃).1
    obtain ⟨-, hls⟩ := of_decide_eq_true hls
    rw [show b.length - 1 - 1 = i + 2 by omega, show b.length - 1 - 3 = i by omega, h₂, hx] at hls
    rcases hls with ⟨-, h⟩ | ⟨-, -, -, h⟩
    · exact absurd (Option.some.inj h) (by decide)
    · exact hcr (Option.some.inj h)
  · intro hmx
    rcases hca with ⟨h1, hlf1⟩ | ⟨h3, hcr1, hlf2⟩
    · refine hbl (decide_eq_true ⟨hlf, .inl ⟨by omega, ?_⟩⟩)
      rwa [show s + j - 1 = s + (j - 1) by omega]
    · obtain ⟨x, hx⟩ : ∃ x, b[s + (j - 3)]? = some x :=
        ⟨_, List.getElem?_eq_getElem (by omega)⟩
      by_cases hcr : x = CR
      · refine hbl (decide_eq_true ⟨hlf, .inr ⟨by omega, ?_, ?_, ?_⟩⟩)
        · rwa [show s + j - 1 = s + (j - 1) by omega]
        · rwa [show s + j - 2 = s + (j - 2) by omega]
        · rw [show s + j - 3 = s + (j - 3) by omega, hx, hcr]
      · exfalso
        by_cases hxlf : x = LF
        · -- two LF would have ended the head before
          have hend : emptyLineEndsAt (b.drop s) (j - 2) = true := by
            simp only [emptyLineEndsAt, List.getElem?_drop, decide_eq_true_eq]
            refine ⟨hlf2, .inl ⟨by omega, ?_⟩⟩
            rw [show s + (j - 2 - 1) = s + (j - 3) by omega, hx, hxlf]
          rw [hmin (j - 2) (by omega)] at hend
          cases hend
        · refine hmx ⟨s + (j - 3), x, hx, hcr, hxlf, ?_, ?_, ?_⟩
          · rwa [show s + (j - 3) + 1 = s + (j - 2) by omega]
          · rwa [show s + (j - 3) + 2 = s + (j - 1) by omega]
          · rwa [show s + (j - 3) + 3 = s + j by omega]

namespace Engine

variable {hp : Httparse} {e e' : Engine} {dir : Dir}

/-- A head that is read was complete for `httparse`. -/
theorem complete_of_parseHead {region : Bytes} {max_headers : ℕ} {head : Head}
    (h : parseHead hp dir region max_headers = some head) :
    ∃ parts, hp dir (headerSlots max_headers) region = .complete parts := by
  unfold parseHead at h
  split at h
  · next parts hps => exact ⟨parts, hps⟩
  · cases h
  · cases h

/-- The first blank line of a buffer is at the end of what is taken up to it. -/
theorem blankFrom_take {buf : Bytes} (h : blankFrom buf 0 = some n) :
    (buf.take n).length = n ∧ blankFrom (buf.take n) 0 = some n := by
  obtain ⟨hpos, hle, hend, hfr⟩ := blankFrom_eq_some.mp h
  have hlen : (buf.take n).length = n := List.length_take_of_le hle
  have hsm {i : ℕ} (hi : i < n) : blankEndsAt (buf.take n) i = blankEndsAt buf i := by
    rw [← blankEndsAt_append (by omega), List.take_append_drop]
  refine ⟨hlen, blankFrom_eq_some.mpr ⟨hpos, hlen.ge, ?_, fun j hj hjn => ?_⟩⟩
  · rwa [hsm (by omega)]
  · rw [hsm (by omega)]
    exact hfr j hj hjn

/-- A head that is reported ends at the first blank line, and `httparse` has read it. -/
theorem Polled.head_region {hd : Head} (h : Polled hp dir e e' (.ok (some (.head hd))))
    (hv : e.Valid) :
    blankFrom hd.raw 0 = some hd.raw.length ∧
      ∃ parts, hp dir (headerSlots e.limits.max_headers) hd.raw = .complete parts := by
  generalize hr : (.ok (some (.head hd)) : Except HttpPoison (Option EngineEvent)) = r at h
  induction h with
  | event hrn =>
    cases hr
    cases hrn with
    | head hlen head _ _ hst hsc _ hpr hfd =>
      rw [(hv dir).blankFrom hst] at hsc
      obtain ⟨hln, hbl⟩ := blankFrom_take hsc
      have hraw : hd.raw = _ := hfd.buf.1.trans (raw_of_parseHead hpr)
      rw [hraw, hln]
      exact ⟨hbl, complete_of_parseHead hpr⟩
  | wait | lost => cases hr
  | again hrn _ ih =>
    have := ih (hrn.valid hv) hr
    rwa [hrn.limits] at this

/-- A head that is reported is exactly one head for `httparse`, unless the ends of its lines are
mixed. -/
theorem head_boundary {limits : EngineLimits} {hd : Head}
    (hhttparse : ∀ dir slots region parts, hp dir slots region = .complete parts →
      headEnd region = some parts.consumed)
    (h : Reach hp limits e) (hpoll : (e.poll hp dir).2 = .ok (some (.head hd))) :
    ∃ parts, hp dir (headerSlots e.limits.max_headers) hd.raw = .complete parts ∧
      (parts.consumed = hd.raw.length ↔ ¬MixedEnd hd.raw) := by
  have hpd := poll_polled hp e dir
  rw [hpoll] at hpd
  obtain ⟨hbl, parts, hps⟩ := hpd.head_region h.valid
  obtain ⟨-, -, hls, hfr⟩ := blankFrom_eq_some.mp hbl
  exact ⟨parts, hps, headEnd_eq_length_iff hls (fun j hj => hfr j (Nat.zero_le j) hj)
    (hhttparse _ _ _ _ hps)⟩

/-- An `httparse` that ends heads as it should, and reports the same line and the same field for all:
those of `plainHead` and of `smuggled`. -/
def lineHttparse : Httparse := fun _ _ region =>
  match headEnd region with
  | some consumed =>
    .complete ⟨consumed, some (ascii "GET"), some (ascii "/"), none, none, some 1,
      [(ascii "A", ascii "b")]⟩
  | none => .incomplete

/-- It ends heads where `headEnd` does. -/
theorem consumed_lineHttparse (dir : Dir) (slots : ℕ) (region : Bytes) (parts : HeadParts)
    (h : lineHttparse dir slots region = .complete parts) : headEnd region = some parts.consumed := by
  unfold lineHttparse at h
  split at h
  · next consumed hend =>
    cases h
    exact hend
  · cases h

/-- A head whose lines all end in CRLF. -/
def plainHead : Bytes := ascii "GET / HTTP/1.1\r\nA: b\r\n\r\n"

/-- The engine and `httparse` agree on where it ends. -/
theorem head_boundary_plain :
    ∃ parts, lineHttparse .request (headerSlots 64) plainHead = .complete parts ∧
      (parts.consumed = plainHead.length ↔ ¬MixedEnd plainHead) := by
  have hpl : (((new {}).push .request plainHead).poll lineHttparse .request).2 =
      .ok (some (.head ⟨.request, ascii "GET", ascii "/", 0, [], .http1_1, [(ascii "A", ascii "b")],
        .none, false, [], plainHead⟩)) := by
    decide +kernel
  exact head_boundary consumed_lineHttparse (Reach.new.push .request plainHead) hpl

/-- A second request stands between a bare LF and CRLF and the next blank line. -/
def smuggled : Bytes := ascii "GET / HTTP/1.1\r\nA: b\n\r\nGET /x HTTP/1.1\r\n\r\n"

/-- The second request is swallowed in the head of the first, under the strict policy. -/
theorem head_swallowed :
    (((new {}).push .request smuggled).poll lineHttparse .request).2 =
        .ok (some (.head ⟨.request, ascii "GET", ascii "/", 0, [], .http1_1,
          [(ascii "A", ascii "b")], .none, false, [], smuggled⟩)) ∧
      lineHttparse .request (headerSlots 64) smuggled =
        .complete ⟨23, some (ascii "GET"), some (ascii "/"), none, none, some 1,
          [(ascii "A", ascii "b")]⟩ ∧
      smuggled.length = 42 ∧ smuggled.drop 23 = ascii "GET /x HTTP/1.1\r\n\r\n" := by
  decide +kernel

end Engine

end Flowscope.Http
