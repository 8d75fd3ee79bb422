import Flowscope.Reassembly.Basic

/-!
# Time buckets

`TimeBucketedCounter` and `RollingRate` (`src/correlate/bucketed.rs`, `src/correlate/rolling_rate.rs`)
put what they are told into buckets of a fixed width and forget the buckets that start before a window.
Both compute the start of a bucket and the start of the window in the same way, on spans since the
epoch, and write the result back as a time of 32-bit seconds. For times that are representable, no later
than `Timestamp::MAX`, nothing is lost on the way.
-/

namespace Flowscope

/-- The derived order: by second, then by nanosecond. -/
instance : LinearOrder Timestamp :=
  LinearOrder.lift' (fun t : Timestamp => toLex (t.sec, t.nsec)) (by
    rintro ⟨s, n⟩ ⟨s', n'⟩ h
    obtain ⟨rfl, rfl⟩ := Prod.mk.inj (toLex.injective h)
    rfl)

theorem Timestamp.lt_iff {a b : Timestamp} : a < b ↔ a.sec < b.sec ∨ a.sec = b.sec ∧ a.nsec < b.nsec :=
  Prod.Lex.toLex_lt_toLex

/-- The time is not after `Timestamp::MAX`. -/
def Timestamp.Representable (t : Timestamp) : Prop := (t.toDuration : ℕ) < 2^32 * 10^9

namespace Correlate

/-- `Timestamp::new(d.as_secs() as u32, d.subsec_nanos())`. -/
def ofDuration (d : Duration) : Timestamp := ⟨d / 10^9 % 2^32, d % 10^9⟩

/-- The start of the bucket of a time. -/
def bucketStartFor (bucket_width : Duration) (ts : Timestamp) : Timestamp :=
  ofDuration (ts.toDuration / bucket_width * bucket_width % 2^64)

/-- The start of the window that ends at a time. -/
def cutoffFor (window : Duration) (now : Timestamp) : Timestamp := ofDuration (now.toDuration - window)

theorem toDuration_ofDuration {d : ℕ} (h : d < 2^32 * 10^9) : (ofDuration d).toDuration = d := by
  have hsec : d / 10^9 % 2^32 = d / 10^9 := Nat.mod_eq_of_lt (by omega)
  rw [ofDuration, hsec]
  exact Nat.div_add_mod' d (10^9)

theorem ofDuration_lt {d d' : ℕ} (h : d < 2^32 * 10^9) (h' : d' < 2^32 * 10^9) :
    ofDuration d < ofDuration d' ↔ d < d' := by
  rw [Timestamp.lt_iff, ofDuration, ofDuration]
  dsimp only
  omega

theorem ofDuration_le {d d' : ℕ} (h : d < 2^32 * 10^9) (h' : d' < 2^32 * 10^9) :
    ofDuration d ≤ ofDuration d' ↔ d ≤ d' := by
  rw [← not_lt, ofDuration_lt h' h, not_lt]

/-- The window moves forward with time. -/
theorem cutoffFor_mono {window : Duration} {now now' : Timestamp} (h : now'.Representable)
    (hle : now.toDuration ≤ now'.toDuration) : cutoffFor window now ≤ cutoffFor window now' := by
  have hsub : now.toDuration - window ≤ now'.toDuration - window := Nat.sub_le_sub_right hle window
  have hlt : now'.toDuration - window < 2^32 * 10^9 := (Nat.sub_le _ _).trans_lt h
  rw [cutoffFor, cutoffFor, ofDuration_le (hsub.trans_lt hlt) hlt]
  exact hsub

variable {bucket_width : Duration} {t : Timestamp}

theorem bucketStart_lt (bucket_width : Duration) (h : t.Representable) :
    t.toDuration / bucket_width * bucket_width % 2^64 = t.toDuration / bucket_width * bucket_width ∧
      t.toDuration / bucket_width * bucket_width ≤ t.toDuration := by
  have hle := Nat.div_mul_le_self t.toDuration bucket_width
  have hlt : t.toDuration / bucket_width * bucket_width < 2^64 :=
    (hle.trans_lt h).trans (by norm_num)
  exact ⟨Nat.mod_eq_of_lt hlt, hle⟩

theorem toDuration_bucketStartFor_le (h : t.Representable) :
    (bucketStartFor bucket_width t).toDuration ≤ t.toDuration := by
  obtain ⟨hmod, hle⟩ := bucketStart_lt bucket_width h
  have hlt : t.toDuration / bucket_width * bucket_width < 2^32 * 10^9 := hle.trans_lt h
  rw [bucketStartFor, hmod, toDuration_ofDuration hlt]
  exact hle

/-- Later times are in later buckets. -/
theorem bucketStartFor_mono {t' : Timestamp} (h : t.Representable)
    (h' : t'.Representable) (hle : t.toDuration ≤ t'.toDuration) :
    bucketStartFor bucket_width t ≤ bucketStartFor bucket_width t' := by
  obtain ⟨hmod, hsr⟩ := bucketStart_lt bucket_width h
  obtain ⟨hmd', hsr'⟩ := bucketStart_lt bucket_width h'
  rw [bucketStartFor, bucketStartFor, hmod, hmd', ofDuration_le (hsr.trans_lt h) (hsr'.trans_lt h')]
  exact Nat.mul_le_mul_right _ (Nat.div_le_div_right hle)

end Correlate

end Flowscope
