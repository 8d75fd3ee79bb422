import Flowscope.Lib.Blanked
import Flowscope.Reassembly.Moves

/-!
# Emission of held bytes

A reassembler holds bytes at offsets past the stream position. When the stream moves on, each offset
that it passes is delivered: the held byte, or a gap where none is held. `Core.Emits` says so, for a
stream whose held bytes are given as a function of the offset, up to the front that the sliding
window turned into a gap. It is put together from skips over empty ranges (`Emits.skipTo`) and
deliveries (`Emits.appends`).
-/

namespace Flowscope

open List StreamChunks

/-- What is held at the offsets from `a` up to `b`. -/
def heldFrom (held : ℕ → Option UInt8) (a b : ℕ) : List (Option UInt8) :=
  (List.range' a (b - a)).map held

section heldFrom

variable {held held' : ℕ → Option UInt8} {a b c : ℕ}

@[simp]
theorem heldFrom_self (held : ℕ → Option UInt8) (a : ℕ) : heldFrom held a a = [] := by
  simp [heldFrom]

@[simp]
theorem length_heldFrom : (heldFrom held a b).length = b - a := by simp [heldFrom]

theorem heldFrom_append (hab : a ≤ b) (hbc : b ≤ c) :
    heldFrom held a b ++ heldFrom held b c = heldFrom held a c := by
  have hlen : c - a = (b - a) + (c - b) := by omega
  have hsr : b = a + 1 * (b - a) := by omega
  rw [heldFrom, heldFrom, heldFrom, ← map_append, hlen, ← List.range'_append, ← hsr]

theorem heldFrom_congr (h : ∀ off, a ≤ off → off < b → held' off = held off) :
    heldFrom held' a b = heldFrom held a b := by
  refine map_congr_left fun off hoff => ?_
  obtain ⟨h1, h2⟩ := mem_range'_1.mp hoff
  exact h off h1 (by omega)

theorem heldFrom_eq_none (h : ∀ off, a ≤ off → off < b → held off = none) :
    heldFrom held a b = List.replicate (b - a) none := by
  refine eq_replicate_iff.mpr ⟨length_heldFrom, fun x hx => ?_⟩
  obtain ⟨off, hoff, rfl⟩ := mem_map.mp hx
  obtain ⟨h1, h2⟩ := mem_range'_1.mp hoff
  exact h off h1 (by omega)

/-- A range in which the given bytes are held. -/
theorem heldFrom_eq_map {bytes : List UInt8}
    (h : ∀ i, i < bytes.length → held (a + i) = bytes[i]?) :
    heldFrom held a (a + bytes.length) = bytes.map some := by
  refine ext_getElem (by simp) fun i h1 h2 => ?_
  have hi : i < bytes.length := by simpa using h2
  simp [heldFrom, h i hi]

end heldFrom

/-- The stream passes from where it is in `c` to where it is in `c'`, delivers what `held` has in
between, and `held'` is what is left. -/
structure Core.Emits (c c' : Core) (held held' : ℕ → Option UInt8) : Prop where
  config : c'.toConfig = c.toConfig
  running : c.stop = none
  running' : c'.stop = none
  le : c.track.next_off ≤ c'.track.next_off
  rest : ∀ off, c'.track.next_off ≤ off → held' off = held off
  /-- The output has what was passed, but for a front that the cap made a gap. -/
  ready : ∃ lost, List.Blanked
      (c.ready.placed ++ heldFrom held c.track.next_off c'.track.next_off) c'.ready.placed lost ∧
    c'.bytes_dropped_oversize = c.bytes_dropped_oversize + lost
  /-- Without a cap there is no such front. -/
  uncapped : c.max_buffer = none →
    c'.ready.placed = c.ready.placed ++ heldFrom held c.track.next_off c'.track.next_off

namespace Core.Emits

variable {c c' c'' : Core} {held held' hel'' : ℕ → Option UInt8}

/-- The stream stays, and what it has passed is forgotten. -/
theorem stay (hrun : c.stop = none) (hrs : ∀ off, c.track.next_off ≤ off → held' off = held off) :
    c.Emits c held held' := by
  refine ⟨rfl, hrun, hrun, le_rfl, hrs, ⟨0, ?_, rfl⟩, fun _ => ?_⟩
  · rw [heldFrom_self, append_nil]
    exact .refl _
  · rw [heldFrom_self, append_nil]

theorem refl (hrun : c.stop = none) (held : ℕ → Option UInt8) : c.Emits c held held :=
  stay hrun fun _ _ => rfl

theorem trans (h : c.Emits c' held held') (h' : c'.Emits c'' held' hel'') :
    c.Emits c'' held hel'' := by
  have hwl : heldFrom held' c'.track.next_off c''.track.next_off =
      heldFrom held c'.track.next_off c''.track.next_off :=
    heldFrom_congr fun off hoff _ => h.rest off hoff
  have hjn : heldFrom held c.track.next_off c'.track.next_off ++
      heldFrom held c'.track.next_off c''.track.next_off =
        heldFrom held c.track.next_off c''.track.next_off := heldFrom_append h.le h'.le
  refine ⟨h'.config.trans h.config, h.running, h'.running', h.le.trans h'.le, fun off hoff => ?_,
    ?_, fun hcap => ?_⟩
  · exact (h'.rest off hoff).trans (h.rest off (h'.le.trans hoff))
  · obtain ⟨lost, hbl, hdd⟩ := h.ready
    obtain ⟨lost', hbl', hdd'⟩ := h'.ready
    refine ⟨lost + lost', ?_, by omega⟩
    rw [← hjn, ← List.append_assoc]
    refine (hbl.append _).trans ?_
    rwa [← hwl]
  · have hcp' : c'.max_buffer = none := (congrArg Config.max_buffer h.config).trans hcap
    rw [h'.uncapped hcp', h.uncapped hcap, hwl, List.append_assoc, hjn]

/-- Other changes to the state do not matter. -/
theorem congr (h : c.Emits c' held held') (hsm : c'.Same c'') : c.Emits c'' held held' := by
  obtain ⟨hcn, hrd, hnx, -, hdd, hsp⟩ := hsm
  refine ⟨hcn.trans h.config, h.running, hsp.trans h.running', hnx ▸ h.le,
    fun off hoff => h.rest off (hnx ▸ hoff), ?_, fun hcap => ?_⟩
  · rw [hrd, hnx, hdd]
    exact h.ready
  · rw [hrd, hnx]
    exact h.uncapped hcap

/-- A skip over a range in which nothing is held. -/
theorem skipTo (hrun : c.stop = none) (off : ℕ)
    (hnn : ∀ i, c.track.next_off ≤ i → i < off → held i = none) (ts : Timestamp) :
    c.Emits (c.skipTo off ts) held held := by
  by_cases hle : off ≤ c.track.next_off
  · rw [Core.skipTo_of_le hle]
    exact .refl hrun held
  have hlt := not_le.mp hle
  have hnx : (c.skipTo off ts).track.next_off = off := by
    rw [Core.next_off_skipTo, max_eq_right hlt.le]
  have hrd : (c.skipTo off ts).ready.placed =
      c.ready.placed ++ heldFrom held c.track.next_off (c.skipTo off ts).track.next_off := by
    rw [hnx, heldFrom_eq_none hnn, Core.skipTo_of_lt hlt, placed_pushGap]
  refine ⟨Core.toConfig_skipTo _ _ _, hrun, (Core.stop_skipTo _ _ _).trans hrun,
    hlt.le.trans_eq hnx.symm, fun _ _ => rfl, ⟨0, ?_, ?_⟩, fun _ => hrd⟩
  · rw [hrd]
    exact .refl _
  · rw [Core.skipTo_of_lt hlt]
    rfl

variable {bytes : List UInt8}

/-- What the sliding window leaves of the output. -/
theorem blanked_slide {r : StreamChunks} {drop extra : ℕ} (hdr : drop ≤ r.len)
    (hex : extra ≤ bytes.length) (hall : extra = 0 ∨ drop = r.len) :
    List.Blanked (r.placed ++ bytes.map some)
      (((r.dropFront drop).pushGap extra).pushData (bytes.drop extra)).placed (drop + extra) := by
  -- the oldest bytes
  have hfn : List.Blanked r.placed (r.dropFront drop).placed drop := by
    have hk : r.frontOf drop ≤ r.placed.length := by
      have := r.length_placed_dropFront drop
      rw [placed_dropFront, length_append, length_replicate] at this
      omega
    refine ⟨r.frontOf drop, hk, r.placed_dropFront drop, ?_⟩
    have hct := (r.dropFront drop).countP_placed
    have htt := r.countP_placed
    rw [placed_dropFront, countP_append, countP_replicate_none,
      len_dropFront] at hct
    rw [← take_append_drop (r.frontOf drop) r.placed, countP_append] at htt
    omega
  rw [placed_pushData, placed_pushGap]
  rcases hall with rfl | rfl
  · simpa using hfn.append (bytes.map some)
  · -- nothing but gaps is left of them, and the first of the new bytes go, too
    have hlen : (r.dropFront r.len).len = 0 := by simp
    have hgap := placed_of_len_eq_zero hlen
    refine (hfn.append _).trans ⟨(r.dropFront r.len).placed.length + extra, ?_, ?_, ?_⟩
    · rw [length_append, length_map]
      omega
    · rw [drop_length_add_append, ← map_drop, ← replicate_append_replicate, ← hgap]
    · rw [take_length_add_append, countP_append, hgap, countP_replicate_none,
        ← map_take, countP_map, countP_eq_length.mpr (by simp), length_take]
      omega

/-- The delivery of the bytes that are held at the stream position. -/
theorem appends (hrun : c.stop = none) {ts : Timestamp}
    (hby : ∀ i, i < bytes.length → held (c.track.next_off + i) = bytes[i]?)
    (hrs : ∀ off, c.track.next_off + bytes.length ≤ off → held' off = held off)
    (happ : { c with track := c.track.advanceTo (c.track.next_off + bytes.length) ts }.Appends
      bytes c') (hrn' : c'.stop = none) : c.Emits c' held held' := by
  have hwl := heldFrom_eq_map hby
  have had : (c.track.advanceTo (c.track.next_off + bytes.length) ts).next_off =
      c.track.next_off + bytes.length := by
    rw [Track.next_off_advanceTo]
    omega
  cases happ with
  | push config next_off gap_bytes ready dropped stop =>
    have hnx := next_off.trans had
    have hrd : c'.ready.placed =
        c.ready.placed ++ heldFrom held c.track.next_off c'.track.next_off := by
      rw [hnx, hwl, ready, placed_pushData]
    refine ⟨config, hrun, hrn', by omega, fun off hoff => hrs off (by omega),
      ⟨0, ?_, dropped⟩, fun _ => hrd⟩
    rw [hrd]
    exact .refl _
  | slide config next_off gap_bytes cap drop extra max_buffer hdr hex hall ready dropped stop =>
    have hnx := next_off.trans had
    refine ⟨config, hrun, hrn', by omega, fun off hoff => hrs off (by omega),
      ⟨drop + extra, ?_, ?_⟩, fun hcap => ?_⟩
    · rw [hnx, hwl, ready]
      exact blanked_slide hdr hex hall
    · rw [dropped, Nat.add_assoc]
    · exact absurd (hcap.symm.trans max_buffer) (Option.some_ne_none cap).symm
  | overflow config next_off gap_bytes cap max_buffer policy ready stop =>
    exact absurd (hrn'.symm.trans stop) (Option.some_ne_none _).symm

end Core.Emits

end Flowscope
