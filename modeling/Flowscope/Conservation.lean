import Flowscope.Buffered.Calls
import Flowscope.Segment.Calls

/-!
# Conservation of the stream length

What was drained, what passed through and what is still ready account for every offset before the
stream position, and every gap mark for a byte that was skipped or dropped at the cap. Each move
keeps the account (`Ledger.move`), and so does each call of either reassembler.
-/

namespace Flowscope

open StreamChunks SegmentBufferReassembler BufferedReassembler

/-- The output up to now: the data and the gaps drained or passed through, and those still ready,
have the length of the stream, and the gaps are the bytes skipped and the bytes dropped. -/
def Core.Conserved (c : Core) (out : StreamChunks) : Prop :=
  out.len + out.gapBytes + (c.ready.len + c.ready.gapBytes) = c.track.next_off ∧
    out.gapBytes + c.ready.gapBytes = c.gap_bytes + c.bytes_dropped_oversize

/-- No data is given up at the cap but for the oldest. -/
def Config.Slides (config : Config) : Prop :=
  config.max_buffer = none ∨ config.overflow_policy = .slidingWindow

/-- The account of a side that runs. -/
structure Ledger (out : StreamChunks) (c : Core) : Prop where
  conserved : c.Conserved out
  running : c.stop = none
  slides : c.toConfig.Slides

namespace Ledger

variable {F : Frame} {out : StreamChunks} {c c' : Core}

/-- A skip enters its length in the gaps, in the counter and in the position. -/
theorem skipTo (h : Ledger out c) (off : ℕ) (ts : Timestamp) : Ledger out (c.skipTo off ts) := by
  by_cases hle : off ≤ c.track.next_off
  · rwa [Core.skipTo_of_le hle]
  · refine ⟨?_, (Core.stop_skipTo _ _ _).trans h.running, by
      rw [Core.toConfig_skipTo]
      exact h.slides⟩
    obtain ⟨hlen, hgap⟩ := h.conserved
    rw [Core.skipTo_of_lt (not_le.mp hle)]
    refine ⟨?_, ?_⟩
    · simp only [len_pushGap, gapBytes_pushGap, Track.next_off_advanceTo]
      have : (c.track.recordSkip c.track.next_off off).next_off = c.track.next_off := rfl
      omega
    · simp only [gapBytes_pushGap]
      omega

/-- Bytes delivered at the stream position lengthen the output by as much, in data or in gaps. -/
theorem appends (h : Ledger out c) {bytes : List UInt8} {ts : Timestamp}
    (happ : { c with track := c.track.advanceTo (c.track.next_off + bytes.length) ts }.Appends
      bytes c') : Ledger out c' := by
  obtain ⟨⟨hlen, hgap⟩, hrun, hsl⟩ := h
  cases happ with
  | push config next_off gap_bytes ready dropped stop =>
    refine ⟨⟨?_, ?_⟩, stop.trans hrun, config ▸ hsl⟩
    · rw [ready, next_off]
      simp only [len_pushData, gapBytes_pushData, Track.next_off_advanceTo]
      omega
    · rw [ready, gap_bytes, dropped]
      simpa using hgap
  | slide config next_off gap_bytes cap drop extra _ hdr hex _ ready dropped stop =>
    have hmin : min drop c.ready.len = drop := min_eq_left hdr
    refine ⟨⟨?_, ?_⟩, stop.trans hrun, config ▸ hsl⟩
    · rw [ready, next_off]
      simp only [len_pushData, gapBytes_pushData, len_pushGap,
        gapBytes_pushGap, len_dropFront, gapBytes_dropFront,
        Track.next_off_advanceTo, List.length_drop]
      omega
    · rw [ready, gap_bytes, dropped]
      simp only [gapBytes_pushData, gapBytes_pushGap, gapBytes_dropFront]
      omega
  | overflow config next_off gap_bytes cap max_buffer policy ready stop =>
    rcases hsl with hnn | hpy
    · exact absurd (hnn.symm.trans max_buffer) (Option.some_ne_none cap).symm
    · simp_all

/-- Every move keeps the account. -/
theorem move (h : Ledger out c) (hmv : Move F c c') : Ledger out c' := by
  cases hmv with
  | note same =>
    refine ⟨?_, same.stop.trans h.running, same.config ▸ h.slides⟩
    rw [Core.Conserved, same.ready, same.next_off, same.gap_bytes, same.dropped]
    exact h.conserved
  | skip off ts => exact h.skipTo off ts
  | deliver bytes ts running carries covered happ => exact h.appends happ
  | jump off ts stopped => exact absurd h.running stopped

/-- Every call keeps the account: of what is collected and of what is ready. -/
theorem turn {p p' : Core × StreamChunks} (h : Ledger p.2 p.1) (htr : Turn F p p') :
    Ledger p'.2 p'.1 := by
  cases htr with
  | path out hpt => exact hpt.keeps (fun _ _ hmv hc => hc.move hmv) h
  | pass out bytes hpt hps =>
    have h₁ := hpt.keeps (fun _ _ hmv hc => hc.move hmv) h
    dsimp only at h₁
    obtain ⟨⟨hlen, hgap⟩, hrun, hsl⟩ := h₁
    refine ⟨⟨?_, ?_⟩, hps.stop.trans hrun, hps.config ▸ hsl⟩
    · rw [hps.ready, hps.next_off]
      simp only [len_pushData, gapBytes_pushData]
      omega
    · rw [hps.ready, hps.gap_bytes, hps.dropped]
      simpa using hgap
  | drain c out =>
    dsimp only at h
    obtain ⟨⟨hlen, hgap⟩, hrun, hsl⟩ := h
    refine ⟨⟨?_, ?_⟩, hrun, hsl⟩
    · simp only [Core.drainInto, hrun, append_snd, len_append,
        gapBytes_append, len_new, gapBytes_new]
      omega
    · simp only [Core.drainInto, hrun, append_snd, gapBytes_append, gapBytes_new]
      omega

theorem new {config : Config} (h : config.Slides) : Ledger .new (Core.new config) :=
  ⟨⟨rfl, rfl⟩, rfl, h⟩

end Ledger

/-- Conservation of the stream length, for both reassemblers. Without a cap, or with one at which
the oldest bytes make room, and after any calls but `take` and `release`, the data and the gaps
collected and still ready add up to the stream position, and the gaps to the bytes that were
skipped or dropped. -/
theorem stream_length_conserved (config : Config) (hslides : config.Slides) (max_ooo_buffer : ℕ)
    (policy : TcpOverlapPolicy) (calls : List Call) (hcalls : ∀ call ∈ calls, call.drops = false) :
    (Call.run calls (SegmentBufferReassembler.new config max_ooo_buffer policy, .new)).Sat
        (fun s => s.1.toCore.Conserved s.2) config.rules.Faults ∧
      (Call.run calls (BufferedReassembler.new config, .new)).Sat
        (fun s => s.1.toCore.Conserved s.2) config.rules.Faults := by
  constructor
  · refine (run_done (I := fun s => Ledger s.2 s.1.toCore)
      Frame.refeeds_any (Frame.places_any _)
      (fun call s s' hcl _ hdn hs => hs.turn (hdn.turn hcl)) ?_ (Ledger.new hslides)
      (fine_new _ _ _) rfl).imp fun s hs => hs.1.conserved
    exact (Except.Along.of_forall hcalls _).imp fun call _ hcl => ⟨Frame.knows_any _ call, hcl⟩
  · refine (run_done (I := fun s => Ledger s.2 s.1.toCore)
      (Frame.places_any _)
      (fun call s s' hcl _ hdn hs => hs.turn (hdn.turn hcl)) ?_ (Ledger.new hslides)
      (fine_new _) rfl).imp fun s hs => hs.1.conserved
    exact (Except.Along.of_forall hcalls _).imp fun call _ hcl => ⟨Frame.knows_any _ call, hcl⟩

/-- A cap of two bytes at which the oldest make room. -/
def smallCap : Config := { Config.new with max_buffer := some 2 }

/-- A hole, more bytes than the cap holds, and cut bytes. -/
def overfull : List Call :=
  [.setOrigin 0, .segment 4 [5, 6, 7] Timestamp.zero, .segment 0 [1, 2] Timestamp.zero,
    .missing 2 2 Timestamp.zero, .drainInto, .segmentInto 7 [8, 9, 10] Timestamp.zero]

theorem stream_length_conserved_overfull :
    (Call.run overfull (SegmentBufferReassembler.new smallCap 0 .lowerSeq, .new)).Sat
        (fun s => s.1.toCore.Conserved s.2) smallCap.rules.Faults ∧
      (Call.run overfull (BufferedReassembler.new smallCap, .new)).Sat
        (fun s => s.1.toCore.Conserved s.2) smallCap.rules.Faults :=
  stream_length_conserved smallCap (.inr rfl) 0 .lowerSeq overfull (by decide)

end Flowscope
