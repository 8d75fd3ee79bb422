import Flowscope.Reassembly.Emission
import Flowscope.Segment.Walk

/-!
# Emission from the out-of-order store

The loops over the store move the stream only past what the store holds: each offset that is passed
delivers its held byte, or a gap where the store has none (`Core.Emits`). The one way out is an
overflow under `OverflowPolicy::DropFlow`, which stops the side (`Halts`).
-/

namespace Flowscope

namespace SegmentBufferReassembler

variable {F : Frame} {E : Fault → Prop} {s s' s'' : SegmentBufferReassembler}

def heldAt (s : SegmentBufferReassembler) (off : ℕ) : Option UInt8 :=
  s.ooo.bind fun o => byteIn o.pieces off

/-- The stream passes over what the store holds. -/
def Emits (s s' : SegmentBufferReassembler) : Prop :=
  s.toCore.Emits s'.toCore s.heldAt s'.heldAt

/-- The side stopped at its cap. -/
structure Halts (s s' : SegmentBufferReassembler) : Prop where
  stop : s'.stop = some .overflow
  policy : s.overflow_policy = .dropFlow
  capped : s.max_buffer ≠ none

theorem heldAt_of_none (h : s.ooo = none) (off : ℕ) : s.heldAt off = none := by
  rw [heldAt, h, Option.bind_none]

theorem heldAt_of_some {o : Ooo} (h : s.ooo = some o) (off : ℕ) :
    s.heldAt off = byteIn o.pieces off := by
  rw [heldAt, h, Option.bind_some]

theorem heldAt_congr (h : s'.ooo = s.ooo) (off : ℕ) : s'.heldAt off = s.heldAt off := by
  rw [heldAt, heldAt, h]

/-- Nothing is held before the first piece. -/
theorem From.heldAt {n : ℕ} (h : s.From n) (hs : s.Held F) {off : ℕ} (hoff : off < n) :
    s.heldAt off = none := by
  cases ho : s.ooo with
  | none => exact heldAt_of_none ho off
  | some o =>
    rw [heldAt_of_some ho, (hs.store o ho).pieces.byteIn_eq_none]
    intro start d hm hin
    have := h o ho start d hm
    omega

theorem heldAt_withoutFirst (h : s.Held F) {o : Ooo} (ho : s.ooo = some o) {start : ℕ} {d : Piece}
    (hm : (start, d) ∈ o.pieces) (off : ℕ) :
    (s.withoutFirst o start d).heldAt off =
      if start ≤ off ∧ off < start + d.len then none else s.heldAt off := by
  obtain ⟨hok, hbyt, -, -⟩ := (h.store o ho).remove hm
  rw [heldAt_of_some ho, ← hbyt]
  by_cases hsz : (o.remove start d).pieces.size = 0
  · -- no piece is left
    rw [heldAt_of_none (by rw [withoutFirst, if_pos hsz])]
    symm
    rw [hok.pieces.byteIn_eq_none]
    intro start' d' hm'
    have := OrdMap.size_pos hm'
    omega
  · exact heldAt_of_some (by rw [withoutFirst, if_neg hsz]) off

/-- Delivering the first piece: only held bytes are passed. -/
theorem deliverFirst_emits (h : s.Held F) (ts : Timestamp)
    (htru : (s.deliverFirst ts).2 = true) :
    s.Emits (s.deliverFirst ts).1 ∧ (∀ off, s.track.next_off ≤ off →
        off < (s.deliverFirst ts).1.track.next_off → s.heldAt off ≠ none) ∨
      s.Halts (s.deliverFirst ts).1 := by
  rcases deliverFirst_cases h ts with ⟨heq, -⟩ | ⟨o, start, d, ho, hf, hle, hsp, hcs⟩
  · rw [heq] at htru
    cases htru
  obtain ⟨hm, -⟩ := OrdMap.first?_eq_some hf
  have hhl := heldAt_withoutFirst h ho hm
  have hpi : ∀ {off}, start ≤ off → off < start + d.len → s.heldAt off = d.data[off - start]? := by
    intro off h1 h2
    rw [heldAt_of_some ho, (h.store o ho).pieces.byteIn_of_mem hm h1 h2]
  rcases hcs with ⟨hend, hres⟩ | ⟨bytes, hby, hne, hadd, hres⟩
  · -- the stream is past the piece
    refine .inl ⟨?_, fun off h1 h2 => ?_⟩
    · rw [hres]
      refine .stay hsp fun off hoff => ?_
      rw [hhl, if_neg (by omega)]
    · rw [hres] at h2
      exact absurd h1 (not_le.mpr h2)
  · rw [hres]
    obtain ⟨s1, hs1⟩ : ∃ s1 : SegmentBufferReassembler, s1 = { s.withoutFirst o start d with
      track := s.track.advanceTo (s.track.next_off + bytes.length) ts } := ⟨_, rfl⟩
    have hsp1 : s1.stop = none := by
      rw [hs1]
      exact hsp
    obtain ⟨happ, -, -, hcs⟩ := appendReady_spec hsp1 hne
    rw [← hs1]
    have hap' : { s.toCore with
        track := s.track.advanceTo (s.track.next_off + bytes.length) ts }.Appends bytes
          (s1.appendReady bytes).toCore := by
      rw [hs1] at happ ⊢
      exact happ.appends
    rcases hcs with ⟨hooo, hrun⟩ | ⟨-, hht⟩
    · have htr := (happ.rest.resolve_right fun h => h.1 hrun).2
      refine .inl ⟨.appends hsp (fun i hi => ?_) (fun off hoff => ?_) hap' hrun,
        fun off h1 h2 => ?_⟩
      · rw [hpi (by omega) (by omega), hby, List.getElem?_drop]
        congr 1
        omega
      · rw [heldAt_congr hooo]
        have : s1.heldAt off = (s.withoutFirst o start d).heldAt off :=
          heldAt_congr (by rw [hs1]) off
        rw [this, hhl, if_neg (by omega)]
      · have hnx : (s1.appendReady bytes).track.next_off =
            max s.track.next_off (s.track.next_off + bytes.length) := by
          rw [htr, hs1]
          exact Track.next_off_advanceTo _ _ _
        rw [hnx] at h2
        have hin : off - start < d.data.length := by
          show _ < d.len
          omega
        rw [hpi (by omega) (by omega), List.getElem?_eq_getElem hin]
        exact Option.some_ne_none _
    · -- only an overflow stops the side
      obtain ⟨hov, hpol, hcap⟩ := hap'.overflows hsp hht
      exact .inr ⟨hov, hpol, hcap⟩

/-- Giving up on the first hole. -/
theorem skipToFirst_emits (h : s.Fine F) (hne : s.ooo ≠ none) (ts : Timestamp) :
    s.Emits (s.skipToFirst ts) ∨ s.Halts (s.skipToFirst ts) := by
  obtain ⟨o, ho⟩ := Option.ne_none_iff_exists'.mp hne
  obtain ⟨start, d, hf, hfr⟩ := h.held.exists_first ho
  obtain ⟨hm, hmin⟩ := OrdMap.first?_eq_some hf
  have hfm : s.From start := by
    intro o' ho' start' d' hm'
    obtain rfl := Option.some.inj (ho.symm.trans ho')
    exact hmin _ hm'
  have heq : s.skipToFirst ts = ((s.skipTo start ts).deliverFirst ts).1 := by
    simp only [skipToFirst, hfr]
  have htru : ((s.skipTo start ts).deliverFirst ts).2 = true := by
    rcases deliverFirst_cases (h.held.skipTo start ts) ts with ⟨-, hah⟩ |
      ⟨o', start', d', -, -, -, -, ⟨-, hres⟩ | ⟨bytes, -, -, -, hres⟩⟩
    · have := hah o ho start d hm
      rw [next_off_skipTo] at this
      omega
    · rw [hres]
    · rw [hres]
  have hsk : s.Emits (s.skipTo start ts) :=
    .skipTo (h.stop_of_some ho) start (fun i _ hi => hfm.heldAt h.held hi) ts
  rw [heq]
  rcases deliverFirst_emits (h.held.skipTo start ts) ts htru with ⟨hem, -⟩ | hhs
  · exact .inl (hsk.trans hem)
  · have hcn : (s.skipTo start ts).toConfig = s.toConfig := hsk.config
    exact .inr ⟨hhs.stop, hcn ▸ hhs.policy, hcn ▸ hhs.capped⟩

/-- Skipping every hole: everything that is held is passed, or the side stops. -/
theorem flushOoo_emits (h : s.Fine F) (hrun : s.stop = none) (ts : Timestamp) :
    (s.flushOoo ts).Sat (fun t => t.Fine F ∧ (t.ooo = none ∧ s.Emits t ∨ s.Halts t)) E := by
  refine (whileDo_sat (fun t => t.Fine F ∧ (s.Emits t ∨ s.Halts t)) oooPieces
    (fun t ht hg => ?_) (fun t ht hg => ?_) s.oooPieces s ⟨h, .inl (.refl hrun _)⟩ le_rfl).imp
    fun t ⟨⟨hfn, hcs⟩, hdn⟩ => ⟨hfn, ?_⟩
  · simp only [Bool.and_eq_true, Option.isSome_iff_ne_none] at hg
    exact oooPieces_pos ht.1 hg.2
  · simp only [Bool.and_eq_true, Option.isSome_iff_ne_none] at hg
    obtain ⟨hstp, hsz⟩ := skipToFirst_steps ht.1 ts
    refine ⟨⟨hstp.fine, ?_⟩, (hsz hg.2).1⟩
    rcases ht.2 with hem | hhs
    · rcases skipToFirst_emits ht.1 hg.2 ts with hem' | hhs
      · exact .inl (hem.trans hem')
      · exact .inr ⟨hhs.stop, hem.config ▸ hhs.policy, hem.config ▸ hhs.capped⟩
    · -- a side that stopped leaves the loop
      rw [hhs.stop] at hg
      cases hg.1
  · refine hcs.imp (fun hem => ⟨?_, hem⟩) id
    have hsp : t.stop = none := hem.running'
    simpa [hsp] using hdn

end SegmentBufferReassembler

end Flowscope
