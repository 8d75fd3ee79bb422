import Flowscope.Segment.Absorb
import Flowscope.Segment.Union

/-!
# The invariant of the out-of-order store

`Ooo.Ok` is what holds of the store between any two steps of the reassembler: the pieces are apart,
the counters are the sums over the pieces, and under a policy that compares sequence numbers the
runs tile the bytes of the pieces and name a segment start in the same piece. `Ooo.Ok.absorb` shows
that absorbing a segment keeps it, and says what became of every byte and of its provenance.
-/

namespace Flowscope

open OrdMap List

namespace Ooo

/-- The invariant of the store, where `bySeq` says whether the policy compares sequence numbers. -/
structure Ok (bySeq : Bool) (o : Ooo) : Prop where
  /-- The pieces are not empty and do not touch. -/
  pieces : Apart o.pieces
  /-- `bytes` is the sum of their lengths. -/
  bytes : o.bytes = o.pieces.total Piece.len
  /-- `capacity` is the sum of their capacities. -/
  capacity : o.capacity = o.pieces.total Piece.capacity
  runs : o.runs.Apart
  /-- The runs cover the bytes of the pieces and no other offset. -/
  tiled : bySeq = true → ∀ off, o.segOf off ≠ none ↔ byteIn o.pieces off ≠ none
  /-- A byte was supplied by a segment that starts at or before it, in the same piece. -/
  supplied : ∀ off seg, o.segOf off = some seg →
    seg ≤ off ∧ ∃ s d, (s, d) ∈ o.pieces ∧ s ≤ seg ∧ off < s + d.len
  no_runs : bySeq = false → o.runs = .empty

variable {o : Ooo} {policy : TcpOverlapPolicy} {start : ℕ} {payload : List UInt8}

theorem ok_new (bySeq : Bool) : Ok bySeq new := by
  have hseg : ∀ off, new.segOf off = none := fun off => rfl
  refine ⟨Apart.empty, rfl, rfl, Spans.apart_empty, fun _ off => ?_, fun off seg h => ?_,
    fun _ => rfl⟩
  · exact ⟨fun h => absurd (hseg off) h, fun h => absurd rfl h⟩
  · exact absurd ((hseg off).symm.trans h) (by simp)

/-! ## Taking parts out -/

theorem mem_foldl_erase {V : Type*} (l : List ℕ) (m : OrdMap ℕ V) (e : ℕ × V) :
    e ∈ l.foldl erase m ↔ e ∈ m ∧ e.1 ∉ l := by
  induction l generalizing m with
  | nil => simp
  | cons k l ih =>
    rw [foldl_cons, ih, mem_erase, mem_cons, not_or, and_assoc]

variable {d : Piece} {m : OrdMap ℕ Piece} {bySeq : Bool} {s : ℕ} {l : List ℕ}

theorem apart_foldl_erase (h : Apart m) (l : List ℕ) : Apart (l.foldl erase m) := by
  induction l generalizing m with
  | nil => exact h
  | cons k l ih => exact ih (h.erase k)

/-- The sum over a map is the sum over the entries taken out and the rest. -/
theorem total_foldl_erase (hl : l.Pairwise (· < ·)) (m : OrdMap ℕ Piece)
    (hmem : ∀ s ∈ l, ∃ d, (s, d) ∈ m) (f : Piece → ℕ) :
    m.total f = (l.map fun s => f ((m.get? s).getD default)).sum +
      (l.foldl erase m).total f := by
  induction l generalizing m with
  | nil => simp
  | cons k l ih =>
    obtain ⟨hk, hl'⟩ := pairwise_cons.mp hl
    obtain ⟨d, hd⟩ := hmem k (by simp)
    have hrs : ∀ s ∈ l, (m.erase k).get? s = m.get? s := by
      intro s hs
      obtain ⟨d', hd'⟩ := hmem s (by simp [hs])
      rw [get?_eq_some.mpr hd', get?_eq_some.mpr (mem_erase.mpr ⟨hd', (hk s hs).ne'⟩)]
    have := ih hl' (m.erase k) fun s hs => by
      obtain ⟨d', hd'⟩ := hmem s (by simp [hs])
      exact ⟨d', mem_erase.mpr ⟨hd', (hk s hs).ne'⟩⟩
    rw [map_congr_left fun s hs => by rw [hrs s hs]] at this
    rw [total_erase hd f, foldl_cons, map_cons, sum_cons,
      get?_eq_some.mpr hd, Option.getD_some]
    omega

/-! ## The union -/

/-- Counting new ranges: their bytes and their provenance are added. -/
theorem foldl_noteNew_spec (policy : TcpOverlapPolicy) (start : ℕ) (l : List Fill)
    (hrn : o.runs.Apart) :
    let o' := l.foldl (noteNew policy start) o
    o'.pieces = o.pieces ∧ o'.capacity = o.capacity ∧
      o'.bytes = o.bytes + (l.map Fill.newLen).sum ∧ Marks policy start (InNew l) o o' := by
  induction l generalizing o with
  | nil => exact ⟨rfl, rfl, rfl, marks_of_runs_eq hrn rfl fun off => by simp [InNew]⟩
  | cons f l ih =>
    rw [foldl_cons]
    obtain ⟨lo, hi, _ | j⟩ := f
    · -- a range of new bytes
      obtain ⟨hpc, hcp, hby, hrun⟩ : (noteNew policy start o ⟨lo, hi, none⟩).pieces = o.pieces ∧
          (noteNew policy start o ⟨lo, hi, none⟩).capacity = o.capacity ∧
          (noteNew policy start o ⟨lo, hi, none⟩).bytes = o.bytes + (hi - lo) ∧
          (noteNew policy start o ⟨lo, hi, none⟩).runs =
            if policy.bySeq then o.runs.put lo hi start else o.runs := by
        unfold noteNew
        split_ifs <;> exact ⟨rfl, rfl, rfl, rfl⟩
      have hmk := marks_put hrn hrun
      obtain ⟨h1, h2, h3, h4⟩ := ih hmk.apart
      refine ⟨h1.trans hpc, h2.trans hcp, ?_, hmk.trans h4 fun off => by simp [InNew]⟩
      rw [map_cons, sum_cons]
      simp only [Fill.newLen]
      omega
    · -- a part: nothing to count
      obtain ⟨h1, h2, h3, h4⟩ := ih (o := noteNew policy start o ⟨lo, hi, some j⟩) hrn
      have hmk : Marks policy start (fun _ => False) o o := marks_of_runs_eq hrn rfl fun _ => id
      refine ⟨h1, h2, ?_, hmk.trans h4 fun off => by simp [InNew]⟩
      rw [h3, map_cons, sum_cons]
      simp only [Fill.newLen, Nat.zero_add]
      rfl

/-- The union: one piece that reads the bytes of the parts and the new ones. -/
theorem coalesce_spec (policy : TcpOverlapPolicy) (start : ℕ) (payload : List UInt8)
    (max_ooo_buffer : ℕ) {parts : List (ℕ × Piece)} {F : ℕ → Option UInt8}
    (hrn : o.runs.Apart) (hjn : Joinable start (start + payload.length) parts)
    (hpt : ∀ p ∈ parts, ∀ k < p.2.len, p.2.data[k]? = F (p.1 + k))
    (hnew : ∀ off, start ≤ off → off < start + payload.length →
      (∀ p ∈ parts, ¬(p.1 ≤ off ∧ off < p.1 + p.2.len)) → F off = payload[off - start]?) :
    let us := unionStart start parts
    let ue := unionEnd (start + payload.length) parts
    let o' := o.coalesce policy max_ooo_buffer start payload parts
    let New := fun off => us ≤ off ∧ off < ue ∧ ∀ p ∈ parts, ¬(p.1 ≤ off ∧ off < p.1 + p.2.len)
    (∃ piece : Piece, o'.pieces = o.pieces.insert us piece ∧ Reads piece.data us F (ue - us) ∧
        piece.len ≤ piece.capacity ∧ o'.capacity = o.capacity + piece.capacity) ∧
      o'.bytes + (parts.map fun p => p.2.len).sum = o.bytes + (ue - us) ∧
      Marks policy start New o o' := by
  intro us ue o' New
  have hus : us ≤ start := unionStart_le parts
  have hue : start + payload.length ≤ ue := le_unionEnd parts
  have hrs : Rest ue us parts 0 parts :=
    ⟨fun k p hk => by simpa using hk, hjn.apart,
      fun p hp => ⟨hjn.unionStart_le p hp, hjn.le_unionEnd p hp⟩, by omega⟩
  have hrds : Reads ((fillFrom ue us 0 parts).flatMap (content start payload parts)) us F
      (ue - us) := fill_reads hrs hpt fun off h1 h2 h3 => by
    have hin := hjn.mem_segment h1 h2 h3
    exact ⟨hin, hnew off hin.1 hin.2 h3⟩
  obtain ⟨hdt, hiw, hsum, hbs⟩ := growFrom_spec start payload parts ue us
  obtain ⟨h1, h2, h3, h4⟩ := foldl_noteNew_spec policy start
    ((growFrom payload parts (fillFrom ue us 0 parts)).2.1 ++
      (growFrom payload parts (fillFrom ue us 0 parts)).2.2) hrn
  rw [funext fun off => propext ((hiw off).trans (inNew_fillFrom hrs off))] at h4
  let capacity := grow (growFrom payload parts (fillFrom ue us 0 parts)).1
    (((fillFrom ue us 0 parts).filter fun f => f.src ≠ baseIdx parts ||
      (baseIdx parts).isNone).map fun f => f.hi - f.lo).sum o.charged max_ooo_buffer
  refine ⟨⟨⟨(fillFrom ue us 0 parts).flatMap (content start payload parts), capacity⟩, ?_, hrds,
    ?_, ?_⟩, ?_, h4.apart, h4.marked, h4.kept, h4.unused⟩
  · rw [← hdt, ← h1]
    rfl
  · show List.length _ ≤ capacity
    rw [hrds.1]
    refine le_trans ?_ (le_grow _ _ _ _)
    have := sum_other hrs (baseIdx parts)
    simp only [Nat.sub_zero, Nat.zero_le, if_true] at this
    omega
  · rw [← h2]
    rfl
  · have hnn := sum_newLen hrs
    have hb : o'.bytes = o.bytes + ((fillFrom ue us 0 parts).map Fill.newLen).sum := by
      rw [← hsum, ← h3]
      rfl
    omega

/-! ## The whole -/

/-- A byte of the segment goes into the store: nothing was held there, or the segment wins. -/
def Takes (o : Ooo) (policy : TcpOverlapPolicy) (start : ℕ) (payload : List UInt8) (off : ℕ) :
    Prop :=
  (start ≤ off ∧ off < start + payload.length) ∧
    (byteIn o.pieces off = none ∨ newWins policy start (o.segOf off) = true)

instance (off : ℕ) : Decidable (Takes o policy start payload off) :=
  inferInstanceAs (Decidable (_ ∧ _))

/-- The byte at an offset once the segment is absorbed. -/
def absorbedByte (o : Ooo) (policy : TcpOverlapPolicy) (start : ℕ) (payload : List UInt8)
    (off : ℕ) : Option UInt8 :=
  if Takes o policy start payload off then payload[off - start]? else byteIn o.pieces off

/-- The writes give the held bytes their final values. -/
theorem overwrite_spec (policy : TcpOverlapPolicy) (start : ℕ) (payload : List UInt8)
    (h : Apart o.pieces) (hrn : o.runs.Apart) :
    let o' := o.overwrite policy start payload
    Rewritten o o' ∧
      Marks policy start (fun off => byteIn o.pieces off ≠ none ∧ Takes o policy start payload off)
        o o' ∧
      (∀ off, byteIn o.pieces off ≠ none →
        byteIn o'.pieces off = absorbedByte o policy start payload off) ∧
      ∀ off, ¬Takes o policy start payload off → byteIn o'.pieces off = byteIn o.pieces off := by
  obtain ⟨hre, hmk, hin, hout⟩ := foldl_write_spec policy start payload h hrn
    fun w hw => writes_bounds h hrn hw
  have hiff : ∀ off, InRanges ((o.hits start (start + payload.length)).flatMap fun s =>
      o.writesAt policy start (start + payload.length) s) off ↔
        byteIn o.pieces off ≠ none ∧ Takes o policy start payload off := by
    intro off
    rw [inRanges_writes h hrn, Takes]
    tauto
  have hnot : ∀ off, ¬Takes o policy start payload off →
      byteIn (o.overwrite policy start payload).pieces off = byteIn o.pieces off :=
    fun off hoff => hout off fun hc => hoff ((hiff off).mp hc).2
  refine ⟨hre, (congrArg (Marks policy start · o _) (funext fun off => propext (hiff off))).mp hmk,
    fun off hhl => ?_, hnot⟩
  unfold absorbedByte
  split_ifs with hoff
  · exact hin off ((hiff off).mpr ⟨hhl, hoff⟩)
  · exact hnot off hoff

/-- The parts that are taken out: they are the pieces that the segment touches. -/
theorem parts_spec {o' : Ooo} (h : Apart o.pieces) (hre : Rewritten o o') (start end_ : ℕ) :
    let parts := (o'.takeParts (o.hits start end_)).2
    Joinable start end_ parts ∧ (∀ p ∈ parts, p ∈ o'.pieces ∧ p.1 ∈ o.hits start end_) ∧
      ∀ s d, (s, d) ∈ o.pieces → s ∈ o.hits start end_ → ∃ p ∈ parts, p.1 = s ∧ p.2.len = d.len := by
  have hap := hre.apart h
  have hat : ∀ s ∈ o.hits start end_, ∃ d, (s, d) ∈ o.pieces ∧ s ≤ end_ ∧ start ≤ s + d.len ∧
      (s, o'.pieceAt s) ∈ o'.pieces ∧ (o'.pieceAt s).len = d.len := by
    intro s hs
    obtain ⟨d, hm, h1, h2⟩ := (mem_hits h).mp hs
    obtain ⟨d', hm', hl, -⟩ := hre.kept s d hm
    rw [pieceAt_eq hm']
    exact ⟨d, hm, h1, h2, hm', hl⟩
  refine ⟨⟨?_, ?_⟩, ?_, ?_⟩
  · refine pairwise_map.mpr ((hits_sorted h start end_).imp_of_mem fun {s s'} hs hs' hlt => ?_)
    obtain ⟨-, -, -, -, hm, -⟩ := hat s hs
    obtain ⟨-, -, -, -, hm', -⟩ := hat s' hs'
    exact hap.apart _ _ _ _ hm hm' hlt
  · intro p hp
    obtain ⟨s, hs, rfl⟩ := mem_map.mp hp
    obtain ⟨d, -, h1, h2, -, hl⟩ := hat s hs
    exact ⟨h1, by dsimp only; omega⟩
  · intro p hp
    obtain ⟨s, hs, rfl⟩ := mem_map.mp hp
    obtain ⟨-, -, -, -, hm, -⟩ := hat s hs
    exact ⟨hm, hs⟩
  · intro s d hm hs
    obtain ⟨d', hm', -, -, -, hl⟩ := hat s hs
    cases eq_of_mem hm' hm rfl
    exact ⟨(s, o'.pieceAt s), mem_map.mpr ⟨s, hs, rfl⟩, rfl, hl⟩

theorem byteIn_foldl_erase (h : Apart m) {off : ℕ}
    (hout : ∀ s d, s ∈ l → (s, d) ∈ m → ¬(s ≤ off ∧ off < s + d.len)) :
    byteIn (l.foldl erase m) off = byteIn m off := by
  induction l generalizing m with
  | nil => rfl
  | cons k l ih =>
    rw [foldl_cons, ih (h.erase k) fun s d hs hm =>
      hout s d (by simp [hs]) (mem_erase.mp hm).1]
    by_cases hk : ∃ d, (k, d) ∈ m
    · obtain ⟨d, hd⟩ := hk
      rw [h.byteIn_erase hd, if_neg (hout k d (by simp) hd)]
    · rw [erase_of_not_mem fun d hd => hk ⟨d, hd⟩]

section Join

variable {o₁ o₂ : Ooo} {parts : List (ℕ × Piece)} {end_ us ue : ℕ}

/-- The stages before the union: `o₁` is the store after the writes, `o₂` the store without the
parts that are joined, and the union is `[us, ue)`. -/
structure Staged (o o₁ o₂ : Ooo) (parts : List (ℕ × Piece)) (start end_ us ue : ℕ) : Prop where
  pieces : Apart o.pieces
  /-- The writes keep the pieces where they are. -/
  rewritten : Rewritten o o₁
  /-- The parts are the pieces that the segment touches. -/
  taken : o₁.takeParts (o.hits start end_) = (o₂, parts)
  union_start : us = unionStart start parts
  union_end : ue = unionEnd end_ parts

namespace Staged

section

variable (h : Staged o o₁ o₂ parts start end_ us ue)
include h

theorem pieces₂ : o₂.pieces = (o.hits start end_).foldl erase o₁.pieces :=
  (congrArg (fun x => x.1.pieces) h.taken).symm

theorem parts_eq : parts = (o.hits start end_).map fun s => (s, o₁.pieceAt s) :=
  (congrArg Prod.snd h.taken).symm

theorem counters₂ :
    o₂.runs = o₁.runs ∧ o₂.bytes = o.bytes ∧
      o₂.capacity = o.capacity - (parts.map fun p => p.2.capacity).sum := by
  obtain ⟨hb, hc, -⟩ := h.rewritten.counters
  refine ⟨(congrArg (fun x => x.1.runs) h.taken).symm,
    (congrArg (fun x => x.1.bytes) h.taken).symm.trans hb, ?_⟩
  rw [h.parts_eq, ← hc]
  exact (congrArg (fun x => x.1.capacity) h.taken).symm

/-- The parts touch the segment. -/
theorem joinable : Joinable start end_ parts := by
  have := (parts_spec h.pieces h.rewritten start end_).1
  rwa [h.taken] at this

end

variable {p : ℕ × Piece} {off : ℕ}

variable (h : Staged o o₁ o₂ parts start end_ us ue)
include h

/-- A part is a piece that the segment touches. -/
theorem mem_part (hp : p ∈ parts) : p ∈ o₁.pieces ∧ p.1 ∈ o.hits start end_ := by
  have := (parts_spec h.pieces h.rewritten start end_).2.1
  rw [h.taken] at this
  exact this p hp

/-- A piece that the segment touches is in the union. -/
theorem exists_part {s : ℕ} {d : Piece} (hm : (s, d) ∈ o.pieces) (hs : s ∈ o.hits start end_) :
    (∃ p ∈ parts, p.1 = s ∧ p.2.len = d.len) ∧ us ≤ s ∧ s + d.len ≤ ue := by
  have hex := (parts_spec h.pieces h.rewritten start end_).2.2 s d hm hs
  rw [h.taken] at hex
  obtain ⟨p, hp, rfl, hl⟩ := hex
  refine ⟨⟨p, hp, rfl, hl⟩, ?_, ?_⟩
  · rw [h.union_start]
    exact h.joinable.unionStart_le p hp
  · rw [h.union_end, ← hl]
    exact h.joinable.le_unionEnd p hp

theorem us_le : us ≤ start := by
  rw [h.union_start]
  exact unionStart_le parts

theorem le_ue : end_ ≤ ue := by
  rw [h.union_end]
  exact le_unionEnd parts

theorem apart₂ : Apart o₂.pieces := by
  rw [h.pieces₂]
  exact apart_foldl_erase (h.rewritten.apart h.pieces) _

/-- The pieces that are left are apart from the union. -/
theorem free {s : ℕ} {d : Piece} (hm : (s, d) ∈ o₂.pieces) : s + d.len < us ∨ ue < s := by
  rw [h.pieces₂] at hm
  obtain ⟨hm, hnot⟩ := (mem_foldl_erase _ _ _).mp hm
  obtain ⟨d0, hm0, hl, -⟩ := h.rewritten.old s d hm
  have hap := h.rewritten.apart h.pieces
  have hfar : end_ < s ∨ s + d.len < start := by
    by_contra hc
    exact hnot ((mem_hits h.pieces).mpr ⟨d0, hm0, by omega, by omega⟩)
  have hpt : ∀ p ∈ parts, p.1 ≠ s := by
    rintro p hp rfl
    exact hnot (h.mem_part hp).2
  rw [h.union_start, h.union_end]
  rcases hfar with hfar | hfar
  · refine .inr ?_
    rcases h.joinable.unionEnd_cases with heq | ⟨p, hp, heq, hle⟩
    · rwa [heq]
    · rw [heq]
      exact hap.apart _ _ _ _ (h.mem_part hp).1 hm (by omega)
  · refine .inl ?_
    rcases h.joinable.unionStart_cases with heq | ⟨p, hp, heq, hle⟩
    · rwa [heq]
    · rw [heq]
      refine hap.apart _ _ _ _ hm (h.mem_part hp).1 ?_
      rcases lt_or_gt_of_ne (hpt p hp) with hlt | hlt
      · have := hap.apart _ _ _ _ (h.mem_part hp).1 hm hlt
        omega
      · exact hlt

/-- An offset of the segment that is in no part was not held. -/
theorem byteIn_eq_none (h1 : start ≤ off)
    (h2 : off < end_) (h3 : ∀ p ∈ parts, ¬(p.1 ≤ off ∧ off < p.1 + p.2.len)) :
    byteIn o.pieces off = none := by
  rw [h.pieces.byteIn_eq_none]
  intro s d hm hs
  by_contra hlt
  obtain ⟨⟨p, hp, rfl, hl⟩, -⟩ :=
    h.exists_part hm ((mem_hits h.pieces).mpr ⟨d, hm, by omega, by omega⟩)
  exact h3 p hp ⟨hs, by omega⟩

/-- An offset of a part was held. -/
theorem byteIn_ne_none (hp : p ∈ parts) (h1 : p.1 ≤ off) (h2 : off < p.1 + p.2.len) :
    byteIn o.pieces off ≠ none := by
  obtain ⟨d, hm, hl, -⟩ := h.rewritten.old p.1 p.2 (h.mem_part hp).1
  exact h.pieces.byteIn_ne_none.mpr ⟨p.1, d, hm, h1, by omega⟩

/-- Outside of the union nothing was taken out. -/
theorem byteIn₂ (hoff : ¬(us ≤ off ∧ off < ue)) : byteIn o₂.pieces off = byteIn o₁.pieces off := by
  rw [h.pieces₂]
  refine byteIn_foldl_erase (h.rewritten.apart h.pieces) fun s d hs hm hc => hoff ?_
  obtain ⟨d0, hm0, hl, -⟩ := h.rewritten.old s d hm
  obtain ⟨-, h1, h2⟩ := h.exists_part hm0 hs
  exact ⟨by omega, by omega⟩

/-- The sums over the pieces are those over the parts and over what is left. -/
theorem total_eq {f : Piece → ℕ} (hf : o₁.pieces.total f = o.pieces.total f) :
    o.pieces.total f = (parts.map fun p => f p.2).sum + o₂.pieces.total f := by
  have := total_foldl_erase (hits_sorted h.pieces start end_) o₁.pieces
    (fun s hs => by
      obtain ⟨d, hm, -, -⟩ := (mem_hits h.pieces).mp hs
      obtain ⟨d', hm', -, -⟩ := h.rewritten.kept s d hm
      exact ⟨d', hm'⟩) f
  rw [← hf, this, h.pieces₂, h.parts_eq, map_map]
  rfl

end Staged

end Join

/-- Joining a segment with the store keeps the invariant, gives the segment's bytes to the offsets
that it takes, and records its start for them. -/
theorem Ok.join (h : Ok policy.bySeq o) (hpy : payload ≠ []) (start max_ooo_buffer : ℕ) :
    let o' := o.join policy max_ooo_buffer start payload
    Ok policy.bySeq o' ∧
      (∀ off, byteIn o'.pieces off = absorbedByte o policy start payload off) ∧
      (policy.bySeq = true → ∀ off, o'.segOf off =
        if Takes o policy start payload off then some start else o.segOf off) := by
  intro o'
  have hlen : 0 < payload.length := length_pos_iff.mpr hpy
  obtain ⟨hre, hmk1, hhl1, hbyt1⟩ := overwrite_spec policy start payload h.pieces h.runs
  -- the stages of the function
  obtain ⟨o₂, parts, htk⟩ : ∃ o₂ parts, (o.overwrite policy start payload).takeParts
    (o.hits start (start + payload.length)) = (o₂, parts) := ⟨_, _, rfl⟩
  obtain ⟨us, hus⟩ : ∃ us, us = unionStart start parts := ⟨_, rfl⟩
  obtain ⟨ue, hue⟩ : ∃ ue, ue = unionEnd (start + payload.length) parts := ⟨_, rfl⟩
  have hst : Staged o (o.overwrite policy start payload) o₂ parts start (start + payload.length)
    us ue := ⟨h.pieces, hre, htk, hus, hue⟩
  have ho' : o' = o₂.coalesce policy max_ooo_buffer start payload parts := by
    simp only [o', Ooo.join, htk]
  have hul := hst.us_le
  have hle_ := hst.le_ue
  have hap1 := hre.apart h.pieces
  have hap2 := hst.apart₂
  obtain ⟨hrn2, hby2, hcp2⟩ := hst.counters₂
  have hmk2 : Marks policy start (fun _ => False) (o.overwrite policy start payload) o₂ :=
    marks_of_runs_eq hmk1.apart hrn2 fun _ => id
  obtain ⟨⟨piece, hpc, hrds, hft, hcap⟩, hby, hmk3⟩ :=
    coalesce_spec policy start payload max_ooo_buffer (F := absorbedByte o policy start payload)
      hmk2.apart hst.joinable
      (fun p hp k hk => by
        rw [← hhl1 (p.1 + k) (hst.byteIn_ne_none hp (by omega) (by omega)),
          hap1.byteIn_of_mem (hst.mem_part hp).1 (by omega) (by omega), Nat.add_sub_cancel_left])
      (fun off h1 h2 h3 => by
        rw [absorbedByte, if_pos ⟨⟨h1, h2⟩, .inl (hst.byteIn_eq_none h1 h2 h3)⟩])
  simp only [← hus, ← hue, ← ho'] at hpc hrds hby hmk3 hcap
  have hpl : piece.len = ue - us := hrds.1
  have hns : ∀ d, (us, d) ∉ o₂.pieces := fun d hm => by
    rcases hst.free hm with h' | h' <;> omega
  have hap' : Apart o'.pieces := by
    rw [hpc]
    refine hap2.insert (by omega) hft fun s d hm => ?_
    rcases hst.free hm with h' | h' <;> omega
  -- an offset that is taken is in the segment, hence in the union
  have hin : ∀ off, Takes o policy start payload off → us ≤ off ∧ off < ue := fun off ht => by
    have := ht.1
    omega
  have hbyt' : ∀ off, byteIn o'.pieces off = absorbedByte o policy start payload off := by
    intro off
    rw [hpc] at hap' ⊢
    rw [hap'.byteIn_insert hap2 (fun d hm => absurd hm (hns d))]
    split_ifs with hoff
    · rw [hrds.2 (off - us) (by omega), Nat.add_sub_cancel' hoff.1]
    · have hoff : ¬(us ≤ off ∧ off < ue) := by omega
      have hnt : ¬Takes o policy start payload off := fun ht => hoff (hin off ht)
      rw [absorbedByte, if_neg hnt, ← hbyt1 off hnt, hst.byteIn₂ hoff]
  -- an offset is taken where it is written, and where it is new
  have hmk : Marks policy start (Takes o policy start payload) o o' := by
    refine hmk1.trans (hmk2.trans hmk3 fun _ => (or_iff_right id).symm) fun off => ?_
    constructor
    · intro ht
      by_cases hhl : byteIn o.pieces off = none
      · exact .inr ⟨(hin off ht).1, (hin off ht).2,
          fun p hp hc => hst.byteIn_ne_none hp hc.1 hc.2 hhl⟩
      · exact .inl ⟨hhl, ht⟩
    · rintro (⟨-, ht⟩ | ⟨h1, h2, h3⟩)
      · exact ht
      · obtain ⟨h1, h2⟩ := hst.joinable.mem_segment (hus ▸ h1) (hue ▸ h2) h3
        exact ⟨⟨h1, h2⟩, .inl (hst.byteIn_eq_none h1 h2 h3)⟩
  have hsg' : policy.bySeq = true → ∀ off, o'.segOf off =
      if Takes o policy start payload off then some start else o.segOf off := by
    intro hp off
    split_ifs with ht
    · exact hmk.marked hp off ht
    · exact hmk.kept off ht
  have hnr : policy.bySeq = false → o'.runs = .empty := fun hp =>
    (hmk.unused hp).trans (h.no_runs hp)
  refine ⟨⟨hap', ?_, ?_, hmk.apart, ?_, ?_, hnr⟩, hbyt', hsg'⟩
  · have ht := hst.total_eq hre.total_len
    have := h.bytes
    rw [hpc, total_insert, erase_of_not_mem hns]
    omega
  · have ht := hst.total_eq hre.total_capacity
    have := h.capacity
    rw [hpc, total_insert, erase_of_not_mem hns]
    omega
  · intro hp off
    rw [hbyt', hsg' hp, absorbedByte]
    split_ifs with ht
    · have : off - start < payload.length := by
        have := ht.1
        omega
      simp [getElem?_eq_getElem this]
    · exact h.tiled hp off
  · intro off seg hseg
    cases hp : policy.bySeq with
    | false =>
      rw [segOf, hnr hp] at hseg
      exact absurd hseg (by simp [Spans.lookup, upTo, empty])
    | true =>
      have hun : (us, piece) ∈ o'.pieces := hpc ▸ mem_insert.mpr (.inl rfl)
      rw [hsg' hp] at hseg
      split_ifs at hseg with ht
      · obtain rfl := Option.some.inj hseg
        exact ⟨ht.1.1, us, piece, hun, hul, by have := hin off ht; omega⟩
      · obtain ⟨hle, s, d, hm, hs, he⟩ := h.supplied off seg hseg
        refine ⟨hle, ?_⟩
        by_cases hhit : s ∈ o.hits start (start + payload.length)
        · obtain ⟨-, h1, h2⟩ := hst.exists_part hm hhit
          exact ⟨us, piece, hun, by omega, by omega⟩
        · obtain ⟨d', hm', hl, -⟩ := hre.kept s d hm
          have hm2 : (s, d') ∈ o₂.pieces := by
            rw [hst.pieces₂]
            exact (mem_foldl_erase _ _ _).mpr ⟨hm', hhit⟩
          have hm'' : (s, d') ∈ o'.pieces := by
            rw [hpc]
            refine mem_insert.mpr (.inr ⟨hm2, ?_⟩)
            rintro rfl
            exact hns d' hm2
          exact ⟨s, d', hm'', hs, by omega⟩

/-- Absorbing a segment joins it with the store and counts the arrival. -/
theorem Ok.absorb (h : Ok policy.bySeq o) (hpy : payload ≠ []) (start max_ooo_buffer : ℕ) :
    let o' := (o.absorb policy max_ooo_buffer start payload).1
    Ok policy.bySeq o' ∧
      (∀ off, byteIn o'.pieces off = absorbedByte o policy start payload off) ∧
      (policy.bySeq = true → ∀ off, o'.segOf off =
        if Takes o policy start payload off then some start else o.segOf off) :=
  Ok.join (o := { o with arrivals := min (o.arrivals + 1) (2^32 - 1) })
    ⟨h.pieces, h.bytes, h.capacity, h.runs, h.tiled, h.supplied, h.no_runs⟩ hpy start
    max_ooo_buffer

/-! ## Taking a piece out -/

/-- A run lies in one piece: none reaches across the start or the end of a piece. -/
theorem Ok.run_inside (h : Ok true o) {lo hi g : ℕ} (hm : (s, d) ∈ o.pieces)
    (hr : (lo, hi, g) ∈ o.runs) : ¬(lo < s ∧ s < hi) ∧ ¬(lo < s + d.len ∧ s + d.len < hi) := by
  have hhl : ∀ off, lo ≤ off → off < hi → byteIn o.pieces off ≠ none := fun off h1 h2 =>
    (h.tiled rfl off).mp (by
      rw [segOf, (Spans.lookup_eq_some h.runs).mpr ⟨lo, hi, hr, h1, h2⟩]
      exact Option.some_ne_none g)
  refine ⟨fun hc => ?_, fun hc => ?_⟩
  · obtain ⟨s', d', hm', h1, h2⟩ := h.pieces.byteIn_ne_none.mp (hhl (s - 1) (by omega) (by omega))
    obtain ⟨rfl, rfl⟩ := h.pieces.unique hm hm' (by omega) (by omega)
    omega
  · obtain ⟨s', d', hm', h1, h2⟩ := h.pieces.byteIn_ne_none.mp
      (hhl (s + d.len) (by omega) (by omega))
    obtain ⟨rfl, rfl⟩ := h.pieces.unique hm hm' (by omega) (by omega)
    omega

variable (h : Ok bySeq o) (hm : (s, d) ∈ o.pieces)
include h hm

/-- Taking a piece out leaves the runs of the other pieces. -/
theorem Ok.mem_cutRuns {e : ℕ × ℕ × ℕ} (he : e ∈ o.runs.cut s (s + d.len)) : e ∈ o.runs := by
  have hpos := h.pieces.nonempty s d hm
  obtain ⟨lo, hi, g⟩ := e
  cases bySeq with
  | false =>
    rw [h.no_runs rfl] at he
    exact absurd he (not_mem_empty _)
  | true =>
    rcases (Spans.mem_cut h.runs (by omega)).mp he with ⟨hi0, hr, hlt, rfl⟩ | ⟨lo0, hr, hlt, rfl⟩
    · have := (h.run_inside hm hr).1
      rwa [min_eq_left (by omega)]
    · have := (h.run_inside hm hr).2
      rwa [max_eq_left (by omega)]

/-- Taking a piece out makes room for its bytes at least. -/
theorem Ok.charged_remove : (o.remove s d).charged + d.len ≤ o.charged := by
  have hp := size_erase_le o.pieces s
  have hr : size (o.runs.cut s (s + d.len)) ≤ o.runs.size :=
    size_le_of_subset fun e he => h.mem_cutRuns hm he
  have h1 : (o.pieces.erase s).size * pieceOverhead ≤ o.pieces.size * pieceOverhead :=
    Nat.mul_le_mul_right _ hp
  have h2 : size (o.runs.cut s (s + d.len)) * runOverhead ≤ o.runs.size * runOverhead :=
    Nat.mul_le_mul_right _ hr
  have h3 := h.pieces.fits s d hm
  have h4 := total_erase hm Piece.capacity
  have h5 := h.capacity
  show o.capacity - d.capacity + (o.pieces.erase s).size * pieceOverhead +
    size (o.runs.cut s (s + d.len)) * runOverhead + d.len ≤ _
  unfold charged
  omega

/-- Taking a piece out keeps the invariant and removes its bytes. -/
theorem Ok.remove :
    Ok bySeq (o.remove s d) ∧
      (∀ off, byteIn (o.remove s d).pieces off =
        if s ≤ off ∧ off < s + d.len then none else byteIn o.pieces off) ∧
      (∀ off, (o.remove s d).segOf off = if s ≤ off ∧ off < s + d.len then none else o.segOf off) ∧
      (o.remove s d).charged ≤ o.charged := by
  have hpos := h.pieces.nonempty s d hm
  have hbyt : ∀ off, byteIn (o.remove s d).pieces off =
      if s ≤ off ∧ off < s + d.len then none else byteIn o.pieces off := h.pieces.byteIn_erase hm
  have hseg : ∀ off, (o.remove s d).segOf off =
      if s ≤ off ∧ off < s + d.len then none else o.segOf off :=
    Spans.lookup_cut h.runs (by omega)
  refine ⟨⟨h.pieces.erase s, ?_, ?_, h.runs.cut (by omega), fun hp off => ?_, fun off g hg => ?_,
    fun hp => ?_⟩, hbyt, hseg, ?_⟩
  · have := total_erase hm Piece.len
    have := h.bytes
    show o.bytes - d.len = (o.pieces.erase s).total Piece.len
    omega
  · have := total_erase hm Piece.capacity
    have := h.capacity
    show o.capacity - d.capacity = (o.pieces.erase s).total Piece.capacity
    omega
  · rw [hbyt, hseg]
    split_ifs
    · simp
    · exact h.tiled hp off
  · rw [hseg] at hg
    split_ifs at hg with hoff
    obtain ⟨hle, s', d', hm', hs', he'⟩ := h.supplied off g hg
    refine ⟨hle, s', d', mem_erase.mpr ⟨hm', ?_⟩, hs', he'⟩
    rintro rfl
    cases eq_of_mem hm' hm rfl
    exact hoff ⟨by omega, he'⟩
  · show o.runs.cut s (s + d.len) = _
    rw [h.no_runs hp]
    rfl
  · exact le_trans (Nat.le_add_right _ _) (h.charged_remove hm)

end Ooo

end Flowscope
