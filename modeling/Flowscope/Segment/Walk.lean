import Flowscope.Reassembly.Moves
import Flowscope.Segment.Model
import Flowscope.Segment.StoreInvariant

/-!
# The segment-buffer reassembler is a path of moves

Every call of `SegmentBufferReassembler` moves the stream only by skipping to covered offsets and by
delivering bytes where they were carried, keeps the invariant of its store, and leaves its store
within budget. `Goes` collects this for one step; `feed_goes`, `missing_goes` and the other
theorems about calls are put together from the steps of the functions that they call. Each is in an
arbitrary `Frame`.
-/

namespace Flowscope

open Option OrdMap Track

namespace SegmentBufferReassembler

variable {F : Frame} {s s' s'' : SegmentBufferReassembler} {ts : Timestamp}

/-- The invariant of the store. -/
structure Held (F : Frame) (s : SegmentBufferReassembler) : Prop where
  store : ∀ o, s.ooo = some o → o.Ok s.overlap_policy.bySeq
  nonempty : ∀ o, s.ooo = some o → 0 < o.pieces.size
  /-- Their bytes were carried where they are held. -/
  carried : ∀ o, s.ooo = some o → ∀ off b, byteIn o.pieces off = some b → F.carried off b
  /-- The stream was seen to reach their ends. -/
  covered : ∀ o, s.ooo = some o → ∀ start d, (start, d) ∈ o.pieces → F.covered (start + d.len)
  stopped : s.stop ≠ none → s.ooo = none

def From (n : ℕ) (s : SegmentBufferReassembler) : Prop :=
  ∀ o, s.ooo = some o → ∀ start d, (start, d) ∈ o.pieces → n ≤ start

/-- The pieces start strictly past the stream position. -/
def Ahead (s : SegmentBufferReassembler) : Prop := s.From (s.track.next_off + 1)

/-- The invariant between calls. -/
structure Fine (F : Frame) (s : SegmentBufferReassembler) : Prop where
  held : s.Held F
  track : F.TrackOk s.track

/-- A step of the reassembler. -/
structure Goes (F : Frame) (s s' : SegmentBufferReassembler) : Prop where
  path : Path F s.toCore s'.toCore
  changes : s.toCore.Changes F.allows s'.toCore
  settings : s'.toConfig = s.toConfig ∧ s'.overlap_policy = s.overlap_policy ∧
    s'.max_ooo_buffer = s.max_ooo_buffer
  bounded : s.charged ≤ s.max_ooo_buffer → s'.charged ≤ s'.max_ooo_buffer
  anchored : s.track.anchored = true → s'.track.anchored = true

/-- No stray comes to be held. -/
def Calm (s s' : SegmentBufferReassembler) : Prop :=
  s'.track.oow = s.track.oow ∨ s'.track.oow = none

theorem Goes.refl (s : SegmentBufferReassembler) : Goes F s s :=
  ⟨Path.refl _, .refl _, ⟨rfl, rfl, rfl⟩, id, id⟩

theorem Goes.trans (h : Goes F s s') (h' : Goes F s' s'') : Goes F s s'' :=
  ⟨h.path.trans h'.path, h.changes.trans h'.changes,
    ⟨h'.settings.1.trans h.settings.1, h'.settings.2.1.trans h.settings.2.1,
      h'.settings.2.2.trans h.settings.2.2⟩,
    fun hb => h'.bounded (h.bounded hb), fun ha => h'.anchored (h.anchored ha)⟩

theorem Calm.refl (s : SegmentBufferReassembler) : Calm s s := .inl rfl

theorem Calm.trans (h : Calm s s') (h' : Calm s' s'') : Calm s s'' := by
  rcases h' with h' | h'
  · rcases h with h | h
    · exact .inl (h'.trans h)
    · exact .inr (h'.trans h)
  · exact .inr h'

/-- The state apart from counters and times. -/
structure Like (s s' : SegmentBufferReassembler) : Prop where
  same : s.toCore.Same s'.toCore
  ooo : s'.ooo = s.ooo
  settings : s'.overlap_policy = s.overlap_policy ∧ s'.max_ooo_buffer = s.max_ooo_buffer

/-- The store of another state, where that is the same one. -/
theorem Held.of_eq (h : s.Held F) (hooo : s'.ooo = s.ooo)
    (hpol : s'.overlap_policy = s.overlap_policy) (hsp : s'.stop ≠ none → s.stop ≠ none) :
    s'.Held F := by
  refine ⟨?_, ?_, ?_, ?_, fun hne => ?_⟩
  · rw [hooo, hpol]
    exact h.store
  · rw [hooo]
    exact h.nonempty
  · rw [hooo]
    exact h.carried
  · rw [hooo]
    exact h.covered
  · rw [hooo]
    exact h.stopped (hsp hne)

variable {bytes : List UInt8} {o : Ooo} {off n start : ℕ} {d : Piece}

theorem From.of_eq (h : s.From n) (hooo : s'.ooo = s.ooo) : s'.From n := by
  rw [From, hooo]
  exact h

theorem From.of_none (h : s.ooo = none) : s.From n := by simp [From, h]

theorem From.mono {m : ℕ} (h : s.From n) (hle : m ≤ n) : s.From m :=
  fun o ho start d hm => hle.trans (h o ho start d hm)

theorem Like.held (h : Like s s') (hs : s.Held F) : s'.Held F :=
  hs.of_eq h.ooo h.settings.1 fun hne => h.same.stop ▸ hne

theorem Like.ahead (h : Like s s') (hs : s.Ahead) : s'.Ahead := by
  rw [Ahead, h.same.next_off]
  exact From.of_eq hs h.ooo

theorem charged_of_none (h : s.ooo = none) : s.charged = 0 := by rw [charged, h]

theorem oooPieces_of_none (h : s.ooo = none) : s.oooPieces = 0 := by rw [oooPieces, h]

theorem Like.goes (h : Like s s') (hch : s.toCore.Changes F.allows s'.toCore)
    (ha : s.track.anchored = true → s'.track.anchored = true) : Goes F s s' := by
  refine ⟨Path.note h.same, hch, ⟨h.same.config, h.settings⟩, ?_, ha⟩
  rw [charged, charged, h.ooo, h.settings.2]
  exact id

theorem Like.fine (h : Like s s') (hs : s.Fine F) (ht : F.TrackOk s'.track) : s'.Fine F :=
  ⟨h.held hs.held, ht⟩

/-- Bytes appended to the ready buffer: it has them, or the side stops and holds nothing. -/
theorem appendReady_spec (hsp : s.stop = none) (hb : bytes ≠ []) :
    s.toCore.Appended bytes (s.appendReady bytes).toCore ∧
      (s.appendReady bytes).overlap_policy = s.overlap_policy ∧
      (s.appendReady bytes).max_ooo_buffer = s.max_ooo_buffer ∧
      ((s.appendReady bytes).ooo = s.ooo ∧ (s.appendReady bytes).stop = none ∨
        (s.appendReady bytes).ooo = none ∧ (s.appendReady bytes).stop ≠ none) := by
  unfold appendReady
  rw [if_neg (by simp [hsp, hb])]
  cases hmax : s.max_buffer with
  | none =>
    exact ⟨⟨.push rfl rfl rfl rfl rfl rfl, rfl, rfl, Core.marked_pushData hb rfl _, .inl ⟨hsp, rfl⟩⟩,
      rfl, rfl, .inl ⟨rfl, hsp⟩⟩
  | some cap =>
    dsimp only
    by_cases hfit : s.ready.len + bytes.length ≤ cap
    · rw [if_pos hfit]
      exact ⟨⟨.push rfl rfl rfl rfl rfl rfl, rfl, rfl, Core.marked_pushData hb rfl _,
        .inl ⟨hsp, rfl⟩⟩, rfl, rfl, .inl ⟨rfl, hsp⟩⟩
    · rw [if_neg hfit]
      cases hpol : s.overflow_policy with
      | dropFlow =>
        exact ⟨⟨.overflow rfl rfl rfl cap hmax hpol rfl rfl, rfl, rfl,
          .inr (.inr (Nat.add_pos_right _ (List.length_pos_iff.mpr hb))),
          .inr ⟨some_ne_none _, rfl⟩⟩, rfl, rfl, .inr ⟨rfl, some_ne_none _⟩⟩
      | slidingWindow =>
        by_cases hcap : cap < bytes.length
        · rw [if_pos hcap]
          exact ⟨⟨.slide rfl rfl rfl cap _ _ hmax (min_le_right _ _) (Nat.sub_le _ _)
            (.inr (min_eq_right (by omega))) rfl rfl rfl, rfl, rfl,
            .inr (.inr (Nat.add_pos_right _ (Nat.sub_pos_of_lt hcap))), .inl ⟨hsp, rfl⟩⟩, rfl, rfl,
            .inl ⟨rfl, hsp⟩⟩
        · rw [if_neg hcap]
          refine ⟨⟨.slide rfl rfl rfl cap (min (s.ready.len + bytes.length - cap) s.ready.len) 0 hmax
            (min_le_right _ _) (Nat.zero_le _) (.inl rfl) ?_ rfl rfl, rfl, rfl,
            Core.marked_pushData hb rfl _, .inl ⟨hsp, rfl⟩⟩, rfl, rfl, .inl ⟨rfl, hsp⟩⟩
          rfl

theorem appendReadyOwned_eq (hsp : s.stop = none) (hb : bytes ≠ []) :
    s.appendReadyOwned bytes = s.appendReady bytes := by
  unfold appendReadyOwned
  dsimp only
  split_ifs with hft
  · simp only [Bool.and_eq_true] at hft
    rw [StreamChunks.pushOwned_eq]
    unfold appendReady
    rw [if_neg (by simp [hsp, hb])]
    cases hmax : s.max_buffer with
    | none => rfl
    | some cap =>
      have : s.ready.len + bytes.length ≤ cap := by simpa [hmax] using hft.1.1
      dsimp only
      rw [if_pos this]
  · rfl

/-! ## Skipping and delivering -/

theorem skipTo_goes (hoff : F.covered off) (ts : Timestamp) : Goes F s (s.skipTo off ts) :=
  ⟨Path.of_move (.skip off ts hoff), .of_change (.skip off ts),
  ⟨Core.toConfig_skipTo _ _ _, rfl, rfl⟩, id,
    fun ha => (Core.anchored_skipTo _ _ _).trans ha⟩

section

variable (s : SegmentBufferReassembler) (off : ℕ) (ts : Timestamp)

theorem stop_skipTo : (s.skipTo off ts).stop = s.stop := Core.stop_skipTo _ _ _

theorem next_off_skipTo :
    (s.skipTo off ts).track.next_off = max s.track.next_off off := Core.next_off_skipTo _ _ _

end

theorem Held.skipTo (h : s.Held F) (off : ℕ) (ts : Timestamp) : (s.skipTo off ts).Held F :=
  ⟨h.store, h.nonempty, h.carried, h.covered, fun hsp => h.stopped (by rwa [stop_skipTo] at hsp)⟩

theorem calm_skipTo (s : SegmentBufferReassembler) (off : ℕ) (ts : Timestamp) :
    Calm s (s.skipTo off ts) := .inl (Core.oow_skipTo _ _ _)

theorem Held.of_none (h : s.ooo = none) : s.Held F :=
  ⟨by simp [h], by simp [h], by simp [h], by simp [h], fun _ => h⟩

/-- There is a first piece, as long as there is a store. -/
theorem Held.exists_first (h : s.Held F) (ho : s.ooo = some o) :
    ∃ start d, o.pieces.first? = some (start, d) ∧ s.firstStart = some start := by
  cases hf : o.pieces.first? with
  | none =>
    have := h.nonempty o ho
    rw [first?_eq_none.mp hf] at this
    omega
  | some e => exact ⟨e.1, e.2, rfl, by simp [firstStart, ho, Ooo.firstStart, hf]⟩

/-- Delivering in order: the bytes of a piece at the stream position. -/
theorem deliver_goes (ts : Timestamp) (hsp : s.stop = none) (hb : bytes ≠ [])
    (ht : F.TrackOk s.track) (hcar : F.CarriesAt s.track.next_off bytes)
    (hcov : F.covered (s.track.next_off + bytes.length))
    (hs' : s' = { s with
      track := s.track.advanceTo (s.track.next_off + bytes.length) ts }.appendReady bytes) :
    Goes F s s' ∧ F.TrackOk s'.track ∧ Calm s s' ∧
      s'.track.next_off = s.track.next_off + bytes.length ∧
      (s'.ooo = s.ooo ∧ s'.stop = none ∨ s'.ooo = none ∧ s'.stop ≠ none) := by
  obtain ⟨happ, hpol, hmax, hcs⟩ := appendReady_spec
    (s := { s with track := s.track.advanceTo (s.track.next_off + bytes.length) ts }) hsp hb
  rw [← hs'] at happ hpol hmax hcs
  obtain ⟨⟨hmv, hch, hcn⟩, ht', ha, hnx, hoow⟩ :=
    Core.Appended.delivers happ hsp ht hcar hcov
  refine ⟨⟨hmv, hch, ⟨hcn, hpol, hmax⟩, ?_, ha⟩, ht', hoow.imp (fun h => h.2) fun h => h.2, hnx, hcs⟩
  rcases hcs with ⟨hooo, -⟩ | ⟨hooo, -⟩
  · rw [charged, charged, hooo, hmax]
    exact id
  · exact fun _ => (charged_of_none hooo).trans_le (Nat.zero_le _)

def withoutFirst (s : SegmentBufferReassembler) (o : Ooo) (start : ℕ) (d : Piece) :
    SegmentBufferReassembler :=
  { s with ooo := if (o.remove start d).pieces.size = 0 then none else some (o.remove start d) }

/-- Taking the first piece out of the store, before it is delivered. -/
theorem remove_goes (h : s.Held F) (ho : s.ooo = some o) (hf : o.pieces.first? = some (start, d))
    (hs' : s' = s.withoutFirst o start d) :
    Goes F s s' ∧ s'.Held F ∧ s'.From (start + d.len + 1) ∧ (∀ n, s.From n → s'.From n) ∧
      s'.oooPieces < s.oooPieces := by
  obtain ⟨hm, hmin⟩ := first?_eq_some hf
  obtain ⟨hok, hbyt, -, hcg⟩ := (h.store o ho).remove hm
  have hsz := size_erase hm
  have hooo : ∀ o', s'.ooo = some o' → o' = o.remove start d ∧ 0 < o'.pieces.size := by
    intro o' ho'
    rw [hs', withoutFirst] at ho'
    split_ifs at ho' with hz
    obtain rfl := some.inj ho'
    exact ⟨rfl, Nat.pos_of_ne_zero hz⟩
  refine ⟨⟨by rw [hs']; exact .refl _, by rw [hs']; exact .refl _,
    by rw [hs']; exact ⟨rfl, rfl, rfl⟩, ?_, by rw [hs']; exact id⟩, ⟨?_, ?_, ?_, ?_, ?_⟩, ?_,
    ?_, ?_⟩
  · rw [charged, ho, hs', withoutFirst]
    split_ifs
    · exact fun _ => Nat.zero_le _
    · exact fun hb => hcg.trans hb
  · intro o' ho'
    rw [(hooo o' ho').1, hs']
    exact hok
  · exact fun o' ho' => (hooo o' ho').2
  · intro o' ho' off b hb
    rw [(hooo o' ho').1, hbyt] at hb
    split_ifs at hb
    exact h.carried o ho off b hb
  · intro o' ho' start' d' hm'
    rw [(hooo o' ho').1] at hm'
    exact h.covered o ho start' d' (mem_erase.mp hm').1
  · intro hsp
    rw [hs'] at hsp
    rw [h.stopped hsp] at ho
    cases ho
  · intro o' ho' start' d' hm'
    rw [(hooo o' ho').1] at hm'
    obtain ⟨hm', hne⟩ := mem_erase.mp hm'
    exact (h.store o ho).pieces.apart _ _ _ _ hm hm' (lt_of_le_of_ne (hmin _ hm') (Ne.symm hne))
  · intro n hn o' ho' start' d' hm'
    rw [(hooo o' ho').1] at hm'
    exact hn o ho start' d' (mem_erase.mp hm').1
  · rw [oooPieces, oooPieces, ho, hs', withoutFirst]
    have : (o.remove start d).pieces.size = (o.pieces.erase start).size := rfl
    split_ifs <;> dsimp only <;> omega

/-- The bytes of a piece from the stream position on were carried there. -/
theorem Held.carriesAt (h : s.Held F) (ho : s.ooo = some o)
    (hm : (start, d) ∈ o.pieces) (hle : start ≤ off) :
    F.CarriesAt off (d.data.drop (off - start)) := by
  intro i b hb
  rw [List.getElem?_drop] at hb
  have hi : off - start + i < d.len := (List.getElem?_eq_some_iff.mp hb).1
  refine h.carried o ho _ b ?_
  rw [(h.store o ho).pieces.byteIn_of_mem hm (by omega) (by omega), ← hb]
  congr 1
  omega

/-- What delivering the first piece does: nothing, if the stream has not reached it. Otherwise the
piece is taken out, and what of it lies past the stream position is appended. -/
theorem deliverFirst_cases (h : s.Held F) (ts : Timestamp) :
    (s.deliverFirst ts = (s, false) ∧ s.Ahead) ∨
      ∃ o start d, s.ooo = some o ∧ o.pieces.first? = some (start, d) ∧
        start ≤ s.track.next_off ∧ s.stop = none ∧
        (start + d.len ≤ s.track.next_off ∧ s.deliverFirst ts = (s.withoutFirst o start d, true) ∨
          ∃ bytes, bytes = d.data.drop (s.track.next_off - start) ∧ bytes ≠ [] ∧
            s.track.next_off + bytes.length = start + d.len ∧
            s.deliverFirst ts = ({ s.withoutFirst o start d with
              track := s.track.advanceTo (s.track.next_off + bytes.length) ts }.appendReady bytes,
                true)) := by
  cases ho : s.ooo with
  | none => exact .inl ⟨by simp [deliverFirst, ho], From.of_none ho⟩
  | some o =>
    obtain ⟨start, d, hf, -⟩ := h.exists_first ho
    obtain ⟨hm, hmin⟩ := first?_eq_some hf
    by_cases hlt : s.track.next_off < start
    · refine .inl ⟨by simp [deliverFirst, ho, hf, hlt], fun o' ho' start' d' hm' => ?_⟩
      obtain rfl := some.inj (ho.symm.trans ho')
      exact hlt.trans_le (hmin _ hm')
    have hsp : s.stop = none := by
      by_contra hne
      rw [h.stopped hne] at ho
      cases ho
    refine .inr ⟨o, start, d, rfl, hf, not_lt.mp hlt, hsp, ?_⟩
    have hres : s.deliverFirst ts = if s.track.next_off < start + d.len then
        ({ s.withoutFirst o start d with
          track := s.track.advanceTo (start + d.len) ts }.appendReadyOwned
            (d.data.drop (s.track.next_off - start)), true)
        else (s.withoutFirst o start d, true) := by
      simp only [deliverFirst, ho, hf, hlt, if_false, withoutFirst]
    by_cases hend : s.track.next_off < start + d.len
    · -- what of the piece lies past the stream position
      have hlen : (d.data.drop (s.track.next_off - start)).length =
          start + d.len - s.track.next_off := by
        rw [List.length_drop]
        show d.len - _ = _
        omega
      have hne : d.data.drop (s.track.next_off - start) ≠ [] :=
        List.ne_nil_of_length_pos (by omega)
      have hadd : s.track.next_off + (d.data.drop (s.track.next_off - start)).length =
          start + d.len := by omega
      refine .inr ⟨_, rfl, hne, hadd, ?_⟩
      rw [hres, if_pos hend, hadd, appendReadyOwned_eq _ hne]
      exact hsp
    · exact .inl ⟨not_lt.mp hend, by rw [hres, if_neg hend]⟩

/-! ## What is held

Bytes only move from the store to the output, where they are charged less. -/

theorem heapBytes_le_of_calm (h : Calm s s') : s'.track.heapBytes ≤ s.track.heapBytes := by
  rcases h with heq | heq
  · rw [heapBytes, heapBytes, heq]
  · rw [heapBytes_of_none heq]
    exact Nat.zero_le _

theorem currentBytes_skipTo (s : SegmentBufferReassembler) (off : ℕ) (ts : Timestamp) :
    (s.skipTo off ts).currentBytes = s.currentBytes := by
  have hrd : (s.skipTo off ts).ready.len = s.ready.len := by
    simp only [skipTo, Core.skipTo]
    split_ifs
    · rfl
    · exact StreamChunks.len_pushGap _ _
  have hhp : (s.skipTo off ts).track.heapBytes = s.track.heapBytes := by
    rw [heapBytes, heapBytes, skipTo, Core.oow_skipTo]
  have hch : (s.skipTo off ts).charged = s.charged := rfl
  rw [currentBytes, currentBytes, hrd, hhp, hch]

/-- Moving the stream position alone changes nothing that is held. -/
theorem currentBytes_advance (s : SegmentBufferReassembler) (off : ℕ) (ts : Timestamp) :
    currentBytes { s with track := s.track.advanceTo off ts } = s.currentBytes := by
  rw [currentBytes, heapBytes, oow_advanceTo]
  rfl

theorem currentBytes_appendReady_le (hsp : s.stop = none) (hb : bytes ≠ []) :
    (s.appendReady bytes).currentBytes ≤ s.currentBytes + bytes.length := by
  obtain ⟨haps, -, -, hcs⟩ := appendReady_spec hsp hb
  have hlen := haps.appends.len_le
  rcases hcs with ⟨hooo, hst⟩ | ⟨hooo, hst⟩
  · have htr := (haps.rest.resolve_right fun h => h.1 hst).2
    have hch : (s.appendReady bytes).charged = s.charged := by rw [charged, charged, hooo]
    rw [currentBytes, currentBytes, htr]
    omega
  · have hhp : (s.appendReady bytes).track.heapBytes = 0 := by
      rw [(haps.rest.resolve_left fun h => hst h.1).2]
      exact heapBytes_of_none rfl
    rw [currentBytes, currentBytes, charged_of_none hooo]
    omega

/-- Taking the first piece out makes room for its bytes. -/
theorem currentBytes_withoutFirst_le (h : s.Held F) (ho : s.ooo = some o)
    (hm : (start, d) ∈ o.pieces) :
    (s.withoutFirst o start d).currentBytes + d.len ≤ s.currentBytes := by
  have hrm := (h.store o ho).charged_remove hm
  have hch : (s.withoutFirst o start d).charged ≤ (o.remove start d).charged := by
    rw [withoutFirst]
    split_ifs
    · exact Nat.zero_le _
    · exact le_rfl
  have hold : s.charged = o.charged := by rw [charged, ho]
  have hrd : (s.withoutFirst o start d).ready = s.ready := rfl
  have htr : (s.withoutFirst o start d).track = s.track := rfl
  rw [currentBytes, currentBytes, hrd, htr]
  omega

theorem currentBytes_deliverFirst_le (h : s.Held F) (ts : Timestamp) :
    (s.deliverFirst ts).1.currentBytes ≤ s.currentBytes := by
  rcases deliverFirst_cases h ts with ⟨heq, -⟩ | ⟨o, start, d, ho, hf, hle, hsp, hcs⟩
  · rw [heq]
  obtain ⟨hm, -⟩ := first?_eq_some hf
  have hrm := currentBytes_withoutFirst_le h ho hm
  obtain ⟨s1, hs1⟩ : ∃ s1, s1 = s.withoutFirst o start d := ⟨_, rfl⟩
  have htr : s.track = s1.track := by
    rw [hs1]
    rfl
  have hsp1 : s1.stop = none := by
    rw [hs1]
    exact hsp
  rw [← hs1] at hrm hcs
  rcases hcs with ⟨-, heq⟩ | ⟨bytes, -, hne, hadd, heq⟩
  · rw [heq]
    dsimp only
    omega
  · have had := currentBytes_advance s1 (s.track.next_off + bytes.length) ts
    have hap := currentBytes_appendReady_le
      (s := { s1 with track := s1.track.advanceTo (s.track.next_off + bytes.length) ts }) hsp1 hne
    rw [heq, htr]
    rw [htr] at had hap hadd hle
    dsimp only
    omega

/-- Delivering the first piece. Where nothing is delivered, nothing changes and the store lies past
the stream position; where the store starts at the stream position, it lies past it afterwards. -/
theorem deliverFirst_goes (h : s.Fine F) (ts : Timestamp) :
    let s' := (s.deliverFirst ts).1
    Goes F s s' ∧ s'.Fine F ∧ Calm s s' ∧ (∀ n, s.From n → s'.From n) ∧
      ((s.deliverFirst ts).2 = true → s'.oooPieces < s.oooPieces ∧ 0 < s'.track.next_off ∧
          (s.From s.track.next_off → s'.Ahead)) ∧
      ((s.deliverFirst ts).2 = false → s' = s ∧ s.Ahead) := by
  intro s'
  rcases deliverFirst_cases h.held ts with ⟨heq, hah⟩ | ⟨o, start, d, ho, hf, hle, hsp, hcs⟩
  · have hs' : s' = s := congrArg Prod.fst heq
    rw [hs', heq]
    exact ⟨.refl s, h, .refl s, fun _ => id, fun hc => absurd hc Bool.false_ne_true,
      fun _ => ⟨rfl, hah⟩⟩
  obtain ⟨hm, -⟩ := first?_eq_some hf
  have hpos := (h.held.store o ho).pieces.nonempty start d hm
  obtain ⟨s1, hs1⟩ : ∃ s1, s1 = s.withoutFirst o start d := ⟨_, rfl⟩
  obtain ⟨hgo1, hhl1, hfm1, hls1, hsz1⟩ := remove_goes h.held ho hf hs1
  have hsm1 : s1.track = s.track ∧ s1.stop = s.stop := by
    rw [hs1]
    exact ⟨rfl, rfl⟩
  rw [← hs1] at hcs
  rcases hcs with ⟨hend, hres⟩ | ⟨bytes, hby, hne, hadd, hres⟩
  · have hs' : s' = s1 := congrArg Prod.fst hres
    rw [hs']
    refine ⟨hgo1, ⟨hhl1, hsm1.1 ▸ h.track⟩, .inl (by rw [hsm1.1]), hls1,
      fun _ => ⟨hsz1, ?_, fun hfm => ?_⟩, fun hc => ?_⟩
    · rw [hsm1.1]
      omega
    · have := hfm o ho start d hm
      omega
    · rw [hres] at hc
      cases hc
  · have hcov := h.held.covered o ho start d hm
    have hcar := h.held.carriesAt ho hm hle
    rw [← hby, ← hsm1.1] at hcar
    rw [← hadd, ← hsm1.1] at hcov
    rw [← hsm1.1] at hres
    obtain ⟨hgo2, ht2, hcl2, hnx2, hcs2⟩ := deliver_goes ts (hsm1.2.trans hsp) hne
      (hsm1.1 ▸ h.track) hcar hcov (congrArg Prod.fst hres : s' = _)
    refine ⟨hgo1.trans hgo2, ⟨?_, ht2⟩, ?_, fun n hn => ?_, fun _ => ⟨?_, ?_, fun _ => ?_⟩,
      fun hc => ?_⟩
    · rcases hcs2 with ⟨hooo, hst⟩ | ⟨hooo, hst⟩
      · exact hhl1.of_eq hooo hgo2.settings.2.1 fun hne => absurd hst hne
      · exact .of_none hooo
    · rwa [Calm, hsm1.1] at hcl2
    · rcases hcs2 with ⟨hooo, -⟩ | ⟨hooo, -⟩
      · exact (hls1 n hn).of_eq hooo
      · exact .of_none hooo
    · refine lt_of_le_of_lt ?_ hsz1
      rcases hcs2 with ⟨hooo, -⟩ | ⟨hooo, -⟩
      · rw [oooPieces, oooPieces, hooo]
      · exact (oooPieces_of_none hooo).trans_le (Nat.zero_le _)
    · rw [hnx2]
      exact Nat.add_pos_right _ (List.length_pos_iff.mpr hne)
    · rw [Ahead, hnx2, hsm1.1, hadd]
      rcases hcs2 with ⟨hooo, -⟩ | ⟨hooo, -⟩
      · exact hfm1.of_eq hooo
      · exact .of_none hooo
    · rw [hres] at hc
      cases hc

/-- A step that holds no new stray and ends in the invariant. -/
structure Steps (F : Frame) (s s' : SegmentBufferReassembler) : Prop where
  goes : Goes F s s'
  fine : s'.Fine F
  calm : Calm s s'
  /-- The store stays past the stream position. -/
  ahead : s.Ahead → s'.Ahead
  from_ : ∀ n, s.From n → s'.From n

theorem Steps.refl (h : s.Fine F) : Steps F s s := ⟨.refl s, h, .refl s, id, fun _ => id⟩

theorem Steps.trans (h : Steps F s s') (h' : Steps F s' s'') : Steps F s s'' :=
  ⟨h.goes.trans h'.goes, h'.fine, h.calm.trans h'.calm, fun ha => h'.ahead (h.ahead ha),
    fun n hn => h'.from_ n (h.from_ n hn)⟩

/-- A step after which no more bytes are held. -/
structure Walks (F : Frame) (s s' : SegmentBufferReassembler) : Prop extends Steps F s s' where
  bytes : s'.currentBytes ≤ s.currentBytes

theorem Walks.refl (h : s.Fine F) : Walks F s s := ⟨.refl h, le_rfl⟩

theorem Walks.trans (h : Walks F s s') (h' : Walks F s' s'') : Walks F s s'' :=
  ⟨h.toSteps.trans h'.toSteps, h'.bytes.trans h.bytes⟩

/-- A change of counters and times. -/
theorem Like.steps (h : Like s s') (hs : s.Fine F) (hch : s.toCore.Changes F.allows s'.toCore)
    (ht : F.TrackOk s'.track) (ha : s.track.anchored = true → s'.track.anchored = true)
    (hc : Calm s s') : Steps F s s' :=
  ⟨h.goes hch ha, h.fine hs ht, hc, h.ahead, fun _ hn => hn.of_eq h.ooo⟩

theorem Like.walks (h : Like s s') (hs : s.Fine F) (hch : s.toCore.Changes F.allows s'.toCore)
    (ht : F.TrackOk s'.track) (ha : s.track.anchored = true → s'.track.anchored = true)
    (hc : Calm s s') : Walks F s s' := by
  refine ⟨h.steps hs hch ht ha hc, ?_⟩
  have hrd : s'.ready = s.ready := h.same.ready
  have hch : s'.charged = s.charged := by rw [charged, charged, h.ooo]
  have hhp := heapBytes_le_of_calm hc
  rw [currentBytes, currentBytes, hrd]
  omega

/-- A change of counters alone. -/
theorem Like.note_steps (h : Like s s') (hs : s.Fine F) (hn : s.toCore.Notes s'.toCore) :
    Steps F s s' :=
  h.steps hs (.note hn) (hn.track ▸ hs.track) (fun ha => hn.track ▸ ha) (.inl (by rw [hn.track]))

/-- A hole that counted as confirmed before the stream moved. -/
theorem Walks.confirm
    (h : Walks F { s with ack_confirmed_gaps := s.ack_confirmed_gaps + 1 } s')
    (hpos : 0 < s'.track.next_off) : Walks F s s' := by
  refine ⟨⟨⟨.trans (.note ?_) h.goes.path, .confirm h.goes.changes (.inr hpos) (.refl _),
    h.goes.settings, h.goes.bounded, h.goes.anchored⟩, h.fine, h.calm, h.ahead, h.from_⟩, h.bytes⟩
  exact ⟨rfl, rfl, rfl, rfl, rfl, rfl⟩

theorem Fine.confirm (h : s.Fine F) :
    ({ s with ack_confirmed_gaps := s.ack_confirmed_gaps + 1 } : SegmentBufferReassembler).Fine F :=
  ⟨h.held.of_eq rfl rfl id, h.track⟩

theorem Fine.stop_of_some (h : s.Fine F) (ho : s.ooo = some o) : s.stop = none := by
  by_contra hne
  rw [h.held.stopped hne] at ho
  cases ho

/-- Giving up on the first hole. -/
theorem skipToFirst_steps (h : s.Fine F) (ts : Timestamp) :
    Walks F s (s.skipToFirst ts) ∧ (s.ooo ≠ none →
      (s.skipToFirst ts).oooPieces < s.oooPieces ∧ 0 < (s.skipToFirst ts).track.next_off) := by
  cases ho : s.ooo with
  | none =>
    have heq : s.skipToFirst ts = s := by simp [skipToFirst, firstStart, ho]
    rw [heq]
    exact ⟨.refl h, fun hne => absurd rfl hne⟩
  | some o =>
    obtain ⟨start, d, hf, hfr⟩ := h.held.exists_first ho
    obtain ⟨hm, hmin⟩ := first?_eq_some hf
    have hcov : F.covered start :=
      F.covered_of_le _ _ (Nat.le_add_right _ _) (h.held.covered o ho start d hm)
    have heq : s.skipToFirst ts = ((s.skipTo start ts).deliverFirst ts).1 := by
      simp only [skipToFirst, hfr]
    have hfn : (s.skipTo start ts).Fine F := ⟨h.held.skipTo start ts, h.track.skipTo hcov ts⟩
    obtain ⟨hgo, hfn', hcl, hls, hdn, -⟩ := deliverFirst_goes hfn ts
    have htru : ((s.skipTo start ts).deliverFirst ts).2 = true := by
      have hnot : ¬ max s.track.next_off start < start := not_lt.mpr (le_max_right _ _)
      have ho' : (s.skipTo start ts).ooo = some o := ho
      simp only [deliverFirst, ho', hf, next_off_skipTo]
      split_ifs <;> rfl
    obtain ⟨hsz, hpos, hah⟩ := hdn htru
    rw [heq]
    refine ⟨⟨⟨(skipTo_goes hcov ts).trans hgo, hfn', (calm_skipTo s start ts).trans hcl,
      fun ha => hah fun o' ho' start' d' hm' => ?_, hls⟩, ?_⟩, fun _ => ⟨hsz, hpos⟩⟩
    · have ho'' : s.ooo = some o' := ho'
      obtain rfl := some.inj (ho.symm.trans ho'')
      have hle := ha o ho start d hm
      rw [next_off_skipTo, max_eq_right (by omega)]
      exact hmin _ hm'
    · exact (currentBytes_deliverFirst_le hfn.held ts).trans (currentBytes_skipTo s start ts).le

theorem oooPieces_pos (h : s.Fine F) (hne : s.ooo ≠ none) : 0 < s.oooPieces := by
  cases ho : s.ooo with
  | none => exact absurd ho hne
  | some o =>
    rw [oooPieces, ho]
    exact h.held.nonempty o ho

variable {E : Fault → Prop}

/-- A loop that gives up holes, as long as its guard asks for it and there are any: it ends, with the
guard false, and has moved the stream if it gave up any. -/
theorem while_skipToFirst_sat {guard : SegmentBufferReassembler → Bool}
    (hgr : ∀ t, guard t = true → t.ooo ≠ none) (h : s.Fine F) (ts : Timestamp)
    (hn : s.oooPieces ≤ n) :
    (whileDo Fault.divergence guard (fun t => .ok (t.skipToFirst ts)) n s).Sat
      (fun t => (Walks F s t ∧ (t = s ∨ 0 < t.track.next_off)) ∧ guard t = false) E := by
  refine whileDo_sat (fun t => Walks F s t ∧ (t = s ∨ 0 < t.track.next_off)) oooPieces
    (fun t ht hg => ?_) (fun t ht hg => ?_) n s ⟨.refl h, .inl rfl⟩ hn
  · exact oooPieces_pos ht.1.fine (hgr t hg)
  · obtain ⟨hstp, hms⟩ := skipToFirst_steps ht.1.fine ts
    obtain ⟨hsz, hpos⟩ := hms (hgr t hg)
    exact ⟨⟨ht.1.trans hstp, .inr hpos⟩, hsz⟩

theorem flushOoo_of_none (h : s.ooo = none) (ts : Timestamp) : s.flushOoo ts = .ok s :=
  whileDo_of_not _ _ (by simp [h])

section

variable (h : s.Fine F) (ts : Timestamp)
include h

/-- Skipping every hole leaves no store. -/
theorem flushOoo_sat :
    (s.flushOoo ts).Sat (fun t => Walks F s t ∧ t.ooo = none ∧ (s.ooo = none → t = s)) E := by
  by_cases hso : s.ooo = none
  · rw [flushOoo_of_none hso]
    exact ⟨.refl h, hso, fun _ => rfl⟩
  refine (while_skipToFirst_sat (fun t ht => ?_) h ts le_rfl).imp
    fun t ht => ⟨ht.1.1, ?_, fun hc => absurd hc hso⟩
  · intro hnn
    simp [hnn] at ht
  · by_contra hne
    have hsp : t.stop ≠ none := by
      intro hnn
      have := ht.2
      simp only [hnn, isNone_none, Bool.true_and, isSome_eq_false_iff,
        isNone_iff_eq_none] at this
      exact hne this
    exact hne (ht.1.1.fine.held.stopped hsp)

/-- Keeping to the budget. -/
theorem enforceOooCap_sat :
    (s.enforceOooCap ts).Sat (fun t => Steps F s t ∧ t.charged ≤ t.max_ooo_buffer) E := by
  refine (while_skipToFirst_sat (fun t ht => ?_) h ts le_rfl).imp
    fun t ht => ⟨ht.1.1.toSteps, ?_⟩
  · intro hnn
    simp [hnn] at ht
  · by_contra hlt
    have hne : t.ooo ≠ none := fun hnn => by
      rw [charged_of_none hnn] at hlt
      omega
    obtain ⟨o, ho⟩ := ne_none_iff_exists'.mp hne
    have hsp := ht.1.1.fine.stop_of_some ho
    have := ht.2
    simp [hsp, ho] at this
    omega

/-- Delivering everything that the stream has reached: pieces go, or nothing changes. -/
theorem deliverAll_sat :
    (s.deliverAll ts).Sat
      (fun t => Steps F s t ∧ t.Ahead ∧ (t = s ∨ t.oooPieces < s.oooPieces)) E := by
  have hlp : (s.deliverAll ts).Sat (fun t => (t.Fine F ∧ Goes F s t ∧ Calm s t ∧
      (∀ n, s.From n → t.From n) ∧ (t = s ∨ t.oooPieces < s.oooPieces)) ∧
      (t.deliverFirst ts).2 = false) E := by
    refine whileDo_sat _ oooPieces (fun t hI hg => ?_) (fun t hI hg => ?_) _ s
      ⟨h, .refl s, .refl s, fun _ => id, .inl rfl⟩ le_rfl
    · obtain ⟨-, -, -, -, hdn, -⟩ := deliverFirst_goes hI.1 ts
      have := (hdn hg).1
      omega
    · obtain ⟨hfn, hgo, hcl, hls, hsz⟩ := hI
      obtain ⟨hgo', hfn', hcl', hls', hdn, -⟩ := deliverFirst_goes hfn ts
      refine ⟨⟨hfn', hgo.trans hgo', hcl.trans hcl', fun n hn => hls' n (hls n hn),
        .inr ?_⟩, (hdn hg).1⟩
      rcases hsz with rfl | hsz
      · exact (hdn hg).1
      · exact (hdn hg).1.trans hsz
  refine hlp.imp fun t ⟨⟨hfn, hgo, hcl, hls, hsz⟩, hdn⟩ => ?_
  obtain ⟨-, -, -, -, -, hsm⟩ := deliverFirst_goes hfn ts
  have hah := (hsm hdn).2
  exact ⟨⟨hgo, hfn, hcl, fun _ => hah, hls⟩, hah, hsz⟩

end

/-! ## Deadlines and acknowledgements -/

/-- Skipping in front of an empty store. -/
theorem skipTo_steps (h : s.Fine F) (hooo : s.ooo = none) (hoff : F.covered off)
    (ts : Timestamp) : Walks F s (s.skipTo off ts) :=
  ⟨⟨skipTo_goes hoff ts, ⟨.of_none hooo, h.track.skipTo hoff ts⟩, calm_skipTo s off ts,
    fun _ => From.of_none hooo, fun _ _ => From.of_none hooo⟩, (currentBytes_skipTo s off ts).le⟩

theorem firstStart_eq_none (h : s.Fine F) (hf : s.firstStart = none) : s.ooo = none := by
  cases ho : s.ooo with
  | none => rfl
  | some o =>
    obtain ⟨start, d, -, hfr⟩ := h.held.exists_first ho
    rw [hf] at hfr
    cases hfr

theorem checkEvidence_sat (h : s.Fine F) (now : Timestamp) :
    (s.checkEvidence now).Sat (Walks F s) E := by
  unfold checkEvidence
  cases hdue : s.track.evidenceDue now s.rules.ack_grace with
  | none => exact .refl h
  | some frontier =>
    obtain ⟨hfrr, hlt⟩ := evidenceDue_eq_some hdue
    have hcov : F.covered frontier := hfrr ▸ h.track.evidence
    cases hfr : s.firstStart with
    | none =>
      refine (skipTo_steps h.confirm (firstStart_eq_none h.confirm hfr) hcov now).confirm ?_
      rw [next_off_skipTo]
      exact lt_max_of_lt_right (Nat.zero_lt_of_lt hlt)
    | some first =>
      dsimp only
      split_ifs with hle
      · refine (while_skipToFirst_sat (fun t ht hnn => ?_) h.confirm now le_rfl).imp
          fun t ht => ht.1.1.confirm (ht.1.2.resolve_left fun heq => ?_)
        · simp [firstStart, hnn] at ht
        · -- the guard holds before the loop
          obtain ⟨o, ho, -⟩ := bind_eq_some_iff.mp hfr
          have hfr' : t.firstStart = some first := by
            rw [heq]
            exact hfr
          have hsp : t.stop = none := by
            rw [heq]
            exact h.stop_of_some ho
          have hgr := ht.2
          simp [hfr', hle, hsp] at hgr
      · exact .refl h

theorem checkTimers_sat (hE : s.rules.Timely E) (h : s.Fine F) (now : Timestamp) :
    (s.checkTimers now).Sat (Walks F s) E := by
  unfold checkTimers
  split_ifs with hsp
  · exact .refl h
  · refine Except.Sat.bind ((checkEvidence_sat h now).imp fun s1 h₁ => ?_)
    have hrl : s1.rules = s.rules := congrArg Config.rules h₁.goes.settings.1
    refine Except.Sat.bind ((Duration.mul_sat (hrl ▸ hE)).imp fun limit _ => ?_)
    · have h₂ : Walks F s (if s1.holeExpired now limit then s1.skipToFirst now else s1) := by
        split_ifs
        · exact h₁.trans (skipToFirst_steps h₁.fine now).1
        · exact h₁
      revert h₂
      generalize (if s1.holeExpired now limit then s1.skipToFirst now else s1) = s2
      intro h₂
      obtain ⟨hnx, han, hcl⟩ := s2.track.expireStray_keeps now limit
      exact h₂.trans (Like.walks ⟨⟨rfl, rfl, hnx, rfl, rfl, rfl⟩, rfl, rfl, rfl⟩ h₂.fine
        (.op F.plain (.expireStray now limit) rfl trivial rfl rfl)
        (h₂.fine.track.expireStray now limit) (fun ha => han.trans ha) hcl)

end SegmentBufferReassembler

end Flowscope
