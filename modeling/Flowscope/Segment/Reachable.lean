import Flowscope.Segment.Calls
import Mathlib.Data.BitVec

/-!
# The out-of-order store in every reachable state

After any sequence of calls the store is charged no more than its budget, and no loop has run out
of pieces to work off (`ooo_within_budget`). Its pieces, counters and provenance runs are in order,
and it lies strictly past the stream position as long as no call finds a candidate of `2^32` bytes or
more (`store_in_order`).

The candidate's length matters where the stream goes on at a candidate: its bytes are fed by their
sequence number, which the flush before may have left more than `2^31` behind, so that they are held
`2^32` too far. Then the stream skips to the candidate's end, and past what is held if the candidate
is that long (`store_not_ahead_of_long_stray`).
-/

namespace Flowscope

namespace SegmentBufferReassembler

/-- The store of a reassembler on its own. -/
structure StoreOrdered (s : SegmentBufferReassembler) : Prop where
  /-- There is no store exactly when there are no pieces. -/
  none_iff : s.ooo = none ↔ s.oooPieces = 0
  /-- Pieces, counters and provenance runs are in order. -/
  ok : ∀ o, s.ooo = some o → o.Ok s.overlap_policy.bySeq

/-- The store of a reassembler between calls, next to the stream position. -/
structure StoreInvariant (s : SegmentBufferReassembler) : Prop extends s.StoreOrdered where
  /-- The pieces start strictly past the stream position. -/
  ahead : ∀ o, s.ooo = some o → ∀ start d, (start, d) ∈ o.pieces → s.track.next_off < start

/-- What holds between calls anyway puts the store in order. -/
theorem Fine.storeOrdered {F : Frame} {s : SegmentBufferReassembler} (h : s.Fine F) :
    s.StoreOrdered := by
  refine ⟨⟨oooPieces_of_none, fun hzr => ?_⟩, h.held.store⟩
  cases ho : s.ooo with
  | none => rfl
  | some o =>
    have hpos := h.held.nonempty o ho
    have hsz : s.oooPieces = o.pieces.size := by rw [oooPieces, ho]
    omega

/-- The store stays in order in every run. It stays past the stream position too in every run in which
no call finds a candidate of `2^32` bytes or more. -/
theorem store_in_order (config : Config) (max_ooo_buffer : ℕ) (policy : TcpOverlapPolicy)
    (calls : List Call) :
    (Call.run calls (new config max_ooo_buffer policy, .new)).Sat
      (fun s => s.1.overlap_policy = policy ∧ s.1.StoreOrdered) config.rules.Faults ∧
    (Call.Along (fun _ s => s.1.track.Short) calls (new config max_ooo_buffer policy, .new) →
      (Call.run calls (new config max_ooo_buffer policy, .new)).Sat
        (fun s => s.1.overlap_policy = policy ∧ s.1.StoreInvariant) config.rules.Faults) := by
  constructor
  · refine (run_done (G := fun _ _ => True)
      Frame.refeeds_any (Frame.places_any _) (fun call s s' _ _ hdn hs => hdn.settings.2.1.trans hs)
      ?_ rfl (fine_new _ _ _) rfl).imp fun s hs => ⟨hs.1, hs.2.1.storeOrdered⟩
    exact (Except.Along.of_forall (fun _ _ => trivial) _).imp
      fun call _ _ => ⟨Frame.knows_any _ call, trivial⟩
  · intro hshort
    exact (run_done (I := fun s => s.1.overlap_policy = policy ∧ s.1.Ahead)
      Frame.refeeds_any (Frame.places_any _)
      (fun call s s' hcl _ hdn hs => ⟨hdn.settings.2.1.trans hs.1, hdn.ahead hcl hs.2⟩)
      (hshort.imp fun call s hs => ⟨Frame.knows_any _ call, hs⟩) ⟨rfl, From.of_none rfl⟩
      (fine_new _ _ _) rfl).imp fun s hs => ⟨hs.1.1, hs.2.1.storeOrdered, hs.1.2⟩

/-- The default settings, with a window of almost `2^31` bytes. -/
def wideWindow : Config := { Config.new with rules.max_ahead := 2^31 - 3 }

/-- A stray and `2^32 - 1` cut bytes after it, a segment at the end of the window, and an ACK that
proves the stray. -/
def longStray : List Call :=
  [.setOrigin 0, .segment (2^31 - 2) [7] Timestamp.zero,
    .missing (2^31 - 1) (2^32 - 1) Timestamp.zero, .missing 0 (2^31 - 3) Timestamp.zero,
    .segment (2^32 - 6) [1, 2, 3, 4, 5, 6, 7] Timestamp.zero, .peerAck (2^32 - 4) Timestamp.zero]

/-- A long candidate can leave the store at the stream position. -/
theorem store_not_ahead_of_long_stray :
    ∃ s out, Call.run longStray (new wideWindow 1000 .first, .new) = .ok (s, out) ∧
      s.firstStart = some s.track.next_off ∧ ¬s.StoreInvariant := by
  have hrun : (Call.run longStray (new wideWindow 1000 .first, .new)).map
      (fun s => decide (s.1.firstStart = some s.1.track.next_off)) = .ok true := by
    decide +kernel
  obtain ⟨s, hs, hdec⟩ := Except.map_eq_ok hrun
  have hfr : s.1.firstStart = some s.1.track.next_off := of_decide_eq_true hdec
  refine ⟨s.1, s.2, hs, hfr, fun hinv => ?_⟩
  obtain ⟨o, ho, hf⟩ := Option.bind_eq_some_iff.mp hfr
  obtain ⟨e, he, heq⟩ := Option.map_eq_some_iff.mp hf
  have := hinv.ahead o ho e.1 e.2 (OrdMap.first?_eq_some he).1
  omega

/-- Two pieces behind a hole, and a stray. -/
def pieces : List Call :=
  [.setOrigin 0, .segment 8 [1, 2] Timestamp.zero, .segment 16 [3] Timestamp.zero,
    .segment (2^30) [4] Timestamp.zero, .segment 9 [5, 6] Timestamp.zero]

/-- Pieces that grow behind a hole, under a policy that keeps their provenance. -/
theorem store_in_order_pieces :
    Call.Along (fun _ s => s.1.track.Short) pieces (new Config.new 1000 .lowerSeq, .new) ∧
      (Call.run pieces (new Config.new 1000 .lowerSeq, .new)).Sat
        (fun s => s.1.overlap_policy = .lowerSeq ∧ s.1.StoreInvariant) Config.new.rules.Faults := by
  have hsh : Call.Along (fun _ s => s.1.track.Short) pieces
      (new Config.new 1000 .lowerSeq, .new) := by decide +kernel
  exact ⟨hsh, (store_in_order Config.new 1000 .lowerSeq pieces).2 hsh⟩

/-- The store is charged at most its budget after any calls, whatever the budget, and every loop
ends: no run faults with a divergence. -/
theorem ooo_within_budget (config : Config) (max_ooo_buffer : ℕ) (policy : TcpOverlapPolicy)
    (calls : List Call) :
    (Call.run calls (new config max_ooo_buffer policy, .new)).Sat
      (fun s => s.1.max_ooo_buffer = max_ooo_buffer ∧ s.1.charged ≤ max_ooo_buffer)
      config.rules.Faults := by
  refine (run_done (G := fun _ _ => True) Frame.refeeds_any (Frame.places_any _)
    (fun call s s' _ _ hdn hs => ?_) ?_ ⟨rfl, Nat.zero_le _⟩ (fine_new _ _ _) rfl).imp
    fun s hs => hs.1
  · have hmax := hdn.settings.2.2.trans hs.1
    have hbn := hdn.bounded (hs.1.symm ▸ hs.2)
    exact ⟨hmax, hmax ▸ hbn⟩
  · exact (Except.Along.of_forall (fun _ _ => trivial) _).imp
      fun call _ _ => ⟨Frame.knows_any _ call, trivial⟩

end SegmentBufferReassembler

end Flowscope
