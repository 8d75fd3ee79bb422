import Flowscope.Segment.Calls

/-!
# What a segment-buffer reassembler holds

Bytes come in with segments. Skipping holes, delivering pieces and letting time pass only moves bytes
from the store to the output, where they are charged less (`flushPending_sheds`, `checkTimers_sheds`).
-/

namespace Flowscope

namespace SegmentBufferReassembler

variable {s t : SegmentBufferReassembler}

/-- The invariant holds, and no more bytes are held. -/
structure Sheds (s t : SegmentBufferReassembler) : Prop where
  fine : t.Fine .any
  bytes : t.currentBytes ≤ s.currentBytes

theorem Walks.sheds (h : Walks .any s t) : Sheds s t := ⟨h.fine, h.bytes⟩

theorem checkTimers_sheds (h : s.Fine .any) (now : Timestamp) :
    (s.checkTimers now).Sat (Sheds s) fun _ => True :=
  (checkTimers_sat (.inr trivial) h now).imp fun _ ht => ht.sheds

theorem flushPending_sheds (h : s.Fine .any) : s.flushPending.Sat (Sheds s) fun _ => True :=
  (flushPending_sat h).imp fun _ ht => ht.1.sheds

end SegmentBufferReassembler

end Flowscope
